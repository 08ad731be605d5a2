import EnclaveOS.Foundation.LinkedList

/-!
# Foundation - a tree of parent, first-child and next-sibling pointers

Every node points to its parent, to its first child and to its next sibling.  The
pointers are functions on an arbitrary type, and a predicate says which values are
nodes.  `KinTree` says that the three pointers tell the same story and that every
node is under a root.
-/

namespace EnclaveOS

variable {α : Type*} {children children' sib sib' parent parent' : α → Option α}
  {node node' : α → Prop} {p q r z w w' n : α} {k : Nat}

/-- The parent pointers lead in `k` steps to a root. -/
inductive Depth (parent : α → Option α) : Nat → α → Prop
  | root {q : α} (h : parent q = none) : Depth parent 0 q
  | child {p q : α} {k : Nat} (h : parent q = some p) (hp : Depth parent k p) :
      Depth parent (k + 1) q

theorem Depth.unique {j : Nat} (hj : Depth parent j q) (hk : Depth parent k q) : j = k := by
  induction hj generalizing k with
  | root h =>
    cases hk with
    | root _ => rfl
    | child h' _ => simp [h] at h'
  | child h _ ih =>
    cases hk with
    | root h' => simp [h] at h'
    | child h' hp =>
      obtain rfl : _ = _ := Option.some.inj (h.symm.trans h')
      rw [ih hp]

/-- The pointers of a forest: every child list holds the nodes with that parent. -/
structure KinTree (children sib parent : α → Option α) (node : α → Prop) : Prop where
  list : ∀ p, node p → ∃ l, Threaded sib (children p) l ∧ ∀ q, q ∈ l ↔ node q ∧ parent q = some p
  root : ∀ q, node q → parent q = none → sib q = none
  up : ∀ p q, node q → parent q = some p → node p
  depth : ∀ q, node q → ∃ k, Depth parent k q

namespace KinTree

variable (ht : KinTree children sib parent node)

include ht

/-- The depth of a node as a function. -/
theorem exists_rank : ∃ rank : α → Nat, (∀ q, node q → parent q = none → rank q = 0) ∧
    ∀ p q, node q → parent q = some p → rank q = rank p + 1 := by
  classical
  refine ⟨fun q => if h : ∃ k, Depth parent k q then h.choose else 0, ?_, ?_⟩
  · intro q hq hroot
    have hdq := ht.depth q hq
    simp only [dif_pos hdq]
    exact hdq.choose_spec.unique (Depth.root hroot)
  · intro p q hq hp
    have hdq := ht.depth q hq
    have hdp := ht.depth p (ht.up p q hq hp)
    simp only [dif_pos hdq, dif_pos hdp]
    exact hdq.choose_spec.unique (Depth.child hp hdp.choose_spec)

/-- Every sibling has a parent, which is that of the next sibling. -/
theorem sib_parent (hw : node w) (hz : sib w = some z) :
    node z ∧ ∃ p, parent w = some p ∧ parent z = some p := by
  cases hp : parent w with
  | none => simp [ht.root w hw hp] at hz
  | some p =>
    obtain ⟨l, hl, hmem⟩ := ht.list p (ht.up p w hw hp)
    have hzl := hl.mem_of_next ((hmem w).mpr ⟨hw, hp⟩) hz
    exact ⟨((hmem z).mp hzl).1, p, rfl, ((hmem z).mp hzl).2⟩

theorem child_parent (hp : node p) (hz : children p = some z) :
    node z ∧ parent z = some p := by
  obtain ⟨l, hl, hmem⟩ := ht.list p hp
  rw [hz] at hl
  exact (hmem z).mp hl.mem_of_head

theorem no_child (hp : node p) (hnone : children p = none) (hq : node q) :
    parent q ≠ some p := by
  intro hqp
  obtain ⟨l, hl, hmem⟩ := ht.list p hp
  rw [hnone] at hl
  rw [hl.eq_nil] at hmem
  simpa using (hmem q).mpr ⟨hq, hqp⟩

/-- The first child is no one's next sibling. -/
theorem sib_ne_first (hp : node p) (hz : children p = some z) (hw : node w) :
    sib w ≠ some z := by
  intro hwz
  obtain ⟨_, p', hp', hz'⟩ := ht.sib_parent hw hwz
  obtain rfl : p' = p := Option.some.inj (hz'.symm.trans (ht.child_parent hp hz).2)
  obtain ⟨l, hl, hmem⟩ := ht.list p' hp
  rw [hz] at hl
  exact hl.next_ne_head ((hmem w).mpr ⟨hw, hp'⟩) hwz

theorem sib_ne_self (hw : node w) : sib w ≠ some w := by
  intro hww
  obtain ⟨_, p, hp, _⟩ := ht.sib_parent hw hww
  obtain ⟨l, hl, hmem⟩ := ht.list p (ht.up p w hw hp)
  exact hl.next_ne_self ((hmem w).mpr ⟨hw, hp⟩) hww

theorem sib_inj (hw : node w) (hw' : node w') (hz : sib w = some z) (hz' : sib w' = some z) :
    w = w' := by
  obtain ⟨_, p, hp, hzp⟩ := ht.sib_parent hw hz
  obtain ⟨_, p', hp', hzp'⟩ := ht.sib_parent hw' hz'
  obtain rfl : p = p' := Option.some.inj (hzp.symm.trans hzp')
  obtain ⟨l, hl, hmem⟩ := ht.list p (ht.up p w hw hp)
  exact hl.next_inj ((hmem w).mpr ⟨hw, hp⟩) ((hmem w').mpr ⟨hw', hp'⟩) hz hz'

theorem ne_parent (hq : node q) (hp : parent q = some p) : p ≠ q := by
  obtain ⟨rank, _, hrank⟩ := ht.exists_rank
  rintro rfl
  have := hrank _ _ hq hp
  omega

/-- Depths survive edits that leave the parents of the nodes alone. -/
theorem depth_congr (hparent : ∀ q, node q → parent' q = parent q) (hq : node q)
    (hd : Depth parent k q) : Depth parent' k q := by
  induction hd with
  | root h => exact .root ((hparent _ hq).trans h)
  | child h _ ih => exact .child ((hparent _ hq).trans h) (ih (ht.up _ _ hq h))

theorem congr (hnode : ∀ q, node' q ↔ node q) (hchildren : ∀ q, node q → children' q = children q)
    (hsib : ∀ q, node q → sib' q = sib q) (hparent : ∀ q, node q → parent' q = parent q) :
    KinTree children' sib' parent' node' := by
  obtain rfl : node' = node := funext fun q => propext (hnode q)
  constructor
  case list =>
    intro p hp
    obtain ⟨l, hl, hmem⟩ := ht.list p hp
    rw [hchildren p hp]
    refine ⟨l, hl.congr fun a ha => hsib a ((hmem a).mp ha).1, fun q => ?_⟩
    rw [hmem]
    exact and_congr_right fun hq => by rw [hparent q hq]
  case root =>
    intro q hq hroot
    rw [hsib q hq]
    exact ht.root q hq ((hparent q hq).symm.trans hroot)
  case up =>
    intro p q hq hp
    exact ht.up p q hq ((hparent q hq).symm.trans hp)
  case depth =>
    intro q hq
    obtain ⟨k, hk⟩ := ht.depth q hq
    exact ⟨k, ht.depth_congr hparent hq hk⟩

/-- A new node, in front of the children of its parent if it has one. -/
theorem add {above : Option α} (hn : ¬ node n) (hnode : ∀ q, node' q ↔ node q ∨ q = n)
    (habove : ∀ p, above = some p → node p ∧ children' p = some n ∧ sib' n = children p)
    (hroot : above = none → sib' n = none) (hchildn : children' n = none)
    (hparentn : parent' n = above)
    (hchildren : ∀ q, node q → above ≠ some q → children' q = children q)
    (hsib : ∀ q, node q → sib' q = sib q) (hparent : ∀ q, node q → parent' q = parent q) :
    KinTree children' sib' parent' node' := by
  constructor
  case list =>
    intro p hp
    rcases (hnode p).mp hp with hold | rfl
    · obtain ⟨l, hl, hmem⟩ := ht.list p hold
      have hl' : Threaded sib' (children p) l :=
        hl.congr fun a ha => hsib a ((hmem a).mp ha).1
      by_cases hpa : above = some p
      · obtain ⟨-, hchildp, hsibn⟩ := habove p hpa
        rw [hchildp]
        refine ⟨n :: l, ⟨rfl, by rw [hsibn]; exact hl'⟩, fun q => ?_⟩
        rw [List.mem_cons, hmem, hnode]
        constructor
        · rintro (rfl | ⟨hq, hqp⟩)
          · exact ⟨Or.inr rfl, hparentn.trans hpa⟩
          · exact ⟨Or.inl hq, (hparent q hq).trans hqp⟩
        · rintro ⟨hq | rfl, hqp⟩
          · exact Or.inr ⟨hq, (hparent q hq).symm.trans hqp⟩
          · exact Or.inl rfl
      · rw [hchildren p hold hpa]
        refine ⟨l, hl', fun q => ?_⟩
        rw [hmem, hnode]
        constructor
        · rintro ⟨hq, hqp⟩
          exact ⟨Or.inl hq, (hparent q hq).trans hqp⟩
        · rintro ⟨hq | rfl, hqp⟩
          · exact ⟨hq, (hparent q hq).symm.trans hqp⟩
          · exact absurd (hparentn.symm.trans hqp) hpa
    · rw [hchildn]
      refine ⟨[], rfl, fun q => ?_⟩
      simp only [List.not_mem_nil, false_iff, not_and]
      intro hq hqn
      rcases (hnode q).mp hq with hq | rfl
      · rw [hparent q hq] at hqn
        exact hn (ht.up _ _ hq hqn)
      · exact hn (habove _ (hparentn.symm.trans hqn)).1
  case root =>
    intro q hq hnone
    rcases (hnode q).mp hq with hq | rfl
    · rw [hsib q hq]
      exact ht.root q hq ((hparent q hq).symm.trans hnone)
    · exact hroot (hparentn.symm.trans hnone)
  case up =>
    intro p q hq hqp
    rcases (hnode q).mp hq with hq | rfl
    · exact (hnode p).mpr (Or.inl (ht.up p q hq ((hparent q hq).symm.trans hqp)))
    · exact (hnode p).mpr (Or.inl (habove p (hparentn.symm.trans hqp)).1)
  case depth =>
    intro q hq
    rcases (hnode q).mp hq with hq | rfl
    · obtain ⟨k, hk⟩ := ht.depth q hq
      exact ⟨k, ht.depth_congr hparent hq hk⟩
    · cases habv : above with
      | none => exact ⟨0, .root (hparentn.trans habv)⟩
      | some p =>
        obtain ⟨hp, -⟩ := habove p habv
        obtain ⟨k, hk⟩ := ht.depth p hp
        exact ⟨k + 1, .child (hparentn.trans habv) (ht.depth_congr hparent hp hk)⟩

/-- A childless node is taken out of the list it is in. -/
theorem removeLeaf [DecidableEq α] (hz : node z) (hleaf : children z = none)
    (hnode : ∀ q, node' q ↔ node q ∧ q ≠ z)
    (hchildren : ∀ p, node p → p ≠ z →
      children' p = if children p = some z then sib z else children p)
    (hsib : ∀ w, node w → w ≠ z → sib' w = if sib w = some z then sib z else sib w)
    (hparent : ∀ q, node q → q ≠ z → parent' q = parent q) :
    KinTree children' sib' parent' node' := by
  have hparent_ne : ∀ p q, node q → parent q = some p → p ≠ z := by
    rintro p q hq hqp rfl
    exact ht.no_child hz hleaf hq hqp
  constructor
  case list =>
    intro p hp
    obtain ⟨hold, hpz⟩ := (hnode p).mp hp
    obtain ⟨l, hl, hmem⟩ := ht.list p hold
    have hiff : ∀ q, (q ∈ l ∧ q ≠ z) ↔ node' q ∧ parent' q = some p := by
      intro q
      rw [hmem, hnode]
      constructor
      · rintro ⟨⟨hq, hqp⟩, hqz⟩
        exact ⟨⟨hq, hqz⟩, (hparent q hq hqz).trans hqp⟩
      · rintro ⟨⟨hq, hqz⟩, hqp⟩
        exact ⟨⟨hq, (hparent q hq hqz).symm.trans hqp⟩, hqz⟩
    by_cases hzl : z ∈ l
    · refine ⟨l.erase z, hl.unlink hzl (hchildren p hold hpz) ?_ ?_, fun q => ?_⟩
      · intro w hw hwz
        have hne : w ≠ z := by
          rintro rfl
          exact hl.next_ne_self hw hwz
        rw [hsib w ((hmem w).mp hw).1 hne, if_pos hwz]
      · intro w hw hne hwz
        rw [hsib w ((hmem w).mp hw).1 hne, if_neg hwz]
      · rw [hl.nodup.mem_erase_iff, ← hiff]
        tauto
    · have hfirst : children p ≠ some z := by
        intro hpz'
        rw [hpz'] at hl
        exact hzl hl.mem_of_head
      rw [hchildren p hold hpz, if_neg hfirst]
      refine ⟨l, hl.congr ?_, fun q => ?_⟩
      · intro w hw
        have hne : w ≠ z := fun e => hzl (e ▸ hw)
        rw [hsib w ((hmem w).mp hw).1 hne, if_neg]
        intro hwz
        exact hzl (hl.mem_of_next hw hwz)
      · rw [← hiff]
        constructor
        · intro hq
          exact ⟨hq, fun e => hzl (e ▸ hq)⟩
        · exact And.left
  case root =>
    intro q hq hroot
    obtain ⟨hold, hqz⟩ := (hnode q).mp hq
    rw [hparent q hold hqz] at hroot
    rw [hsib q hold hqz, ht.root q hold hroot, if_neg (by simp)]
  case up =>
    intro p q hq hqp
    obtain ⟨hold, hqz⟩ := (hnode q).mp hq
    rw [hparent q hold hqz] at hqp
    exact (hnode p).mpr ⟨ht.up p q hold hqp, hparent_ne p q hold hqp⟩
  case depth =>
    intro q hq
    obtain ⟨hold, hqz⟩ := (hnode q).mp hq
    obtain ⟨k, hk⟩ := ht.depth q hold
    refine ⟨k, ?_⟩
    clear hq
    induction hk with
    | root h => exact .root ((hparent _ hold hqz).trans h)
    | child h _ ih =>
      exact .child ((hparent _ hold hqz).trans h)
        (ih (ht.up _ _ hold h) (hparent_ne _ _ hold h))

/-- The first child `q` of `p` becomes the first child of `r`, which is not
below `q`. -/
theorem adopt (hp : node p) (hr : node r) (hpr : p ≠ r) (hpq : children p = some q)
    (hrq : ∃ k, Depth parent' k r) (hchildp : children' p = sib q)
    (hchildr : children' r = some q) (hsibq : sib' q = children r)
    (hparentq : parent' q = some r)
    (hchildren : ∀ a, node a → a ≠ p → a ≠ r → children' a = children a)
    (hsib : ∀ a, node a → a ≠ q → sib' a = sib a)
    (hparent : ∀ a, node a → a ≠ q → parent' a = parent a) :
    KinTree children' sib' parent' node := by
  obtain ⟨hq, hqp⟩ := ht.child_parent hp hpq
  constructor
  case list =>
    intro a ha
    obtain ⟨l, hl, hmem⟩ := ht.list a ha
    by_cases hap : a = p
    · subst hap
      rw [hpq] at hl
      cases l with
      | nil => simp at hl
      | cons b l =>
        have hnodup := List.nodup_cons.mp hl.nodup
        rw [Threaded.cons_iff, Option.some.injEq] at hl
        obtain ⟨rfl, hl⟩ := hl
        rw [hchildp]
        refine ⟨l, hl.congr fun c hc => ?_, fun c => ?_⟩
        · exact hsib c ((hmem c).mp (by simp [hc])).1 fun e => hnodup.1 (e ▸ hc)
        · by_cases hcq : c = q
          · subst hcq
            constructor
            · intro hc
              exact absurd hc hnodup.1
            · rintro ⟨_, hca⟩
              rw [hparentq, Option.some.injEq] at hca
              exact absurd hca.symm hpr
          · have := hmem c
            rw [List.mem_cons] at this
            constructor
            · intro hc
              have hnc := this.mp (Or.inr hc)
              exact ⟨hnc.1, (hparent c hnc.1 hcq).trans hnc.2⟩
            · rintro ⟨hc, hca⟩
              exact (this.mpr ⟨hc, (hparent c hc hcq).symm.trans hca⟩).resolve_left hcq
    · have hql : q ∉ l := by
        intro hql
        exact hap (Option.some.inj (((hmem q).mp hql).2.symm.trans hqp))
      have hl' : Threaded sib' (children a) l :=
        hl.congr fun c hc => hsib c ((hmem c).mp hc).1 fun e => hql (e ▸ hc)
      by_cases har : a = r
      · subst har
        rw [hchildr]
        refine ⟨q :: l, ⟨rfl, by rw [hsibq]; exact hl'⟩, fun c => ?_⟩
        rw [List.mem_cons, hmem]
        constructor
        · rintro (rfl | ⟨hc, hca⟩)
          · exact ⟨hq, hparentq⟩
          · refine ⟨hc, (hparent c hc ?_).trans hca⟩
            rintro rfl
            exact hap (Option.some.inj (hca.symm.trans hqp))
        · rintro ⟨hc, hca⟩
          by_cases hcq : c = q
          · exact Or.inl hcq
          · exact Or.inr ⟨hc, (hparent c hc hcq).symm.trans hca⟩
      · rw [hchildren a ha hap har]
        refine ⟨l, hl', fun c => ?_⟩
        rw [hmem]
        constructor
        · rintro ⟨hc, hca⟩
          refine ⟨hc, (hparent c hc ?_).trans hca⟩
          rintro rfl
          exact hap (Option.some.inj (hca.symm.trans hqp))
        · rintro ⟨hc, hca⟩
          by_cases hcq : c = q
          · subst hcq
            rw [hparentq, Option.some.injEq] at hca
            exact absurd hca.symm har
          · exact ⟨hc, (hparent c hc hcq).symm.trans hca⟩
  case root =>
    intro a ha hroot
    have haq : a ≠ q := by
      rintro rfl
      simp [hparentq] at hroot
    rw [hsib a ha haq]
    exact ht.root a ha ((hparent a ha haq).symm.trans hroot)
  case up =>
    intro b a ha hab
    by_cases haq : a = q
    · subst haq
      obtain rfl : r = b := Option.some.inj (hparentq.symm.trans hab)
      exact hr
    · exact ht.up b a ha ((hparent a ha haq).symm.trans hab)
  case depth =>
    obtain ⟨m, hm⟩ := hrq
    intro a ha
    obtain ⟨k, hk⟩ := ht.depth a ha
    induction hk with
    | @root a h =>
      have haq : a ≠ q := by
        rintro rfl
        simp [h] at hqp
      exact ⟨0, .root ((hparent _ ha haq).trans h)⟩
    | @child b a k h _ ih =>
      by_cases haq : a = q
      · subst haq
        exact ⟨m + 1, .child hparentq hm⟩
      · obtain ⟨j, hj⟩ := ih (ht.up _ _ ha h)
        exact ⟨j + 1, .child ((hparent _ ha haq).trans h) hj⟩

end KinTree
end EnclaveOS

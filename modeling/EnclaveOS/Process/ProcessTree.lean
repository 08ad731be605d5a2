import EnclaveOS.Process.SchedulerInv

/-!
# ProcessTree - the process tree and the ways out of it

The tree pointers of the tasks that are not dead form a forest.  While
`task_cleanup_children_on_exit` goes through a child list, the first child left is
in a variable of the loop and not in the parent, so the invariant takes the heads of
the child lists as a function of its own.
-/

namespace EnclaveOS
namespace Scheduler

variable {s s' s'' : Scheduler} {p q c task : Pcb} {t t' : Task}
  {heads heads' : Pcb → Option Pcb} {rank : Pcb → Nat} {k k' : Nat} {g : Task → Option Pcb}

/-- The tree pointers, read with the given heads of the child lists. -/
structure FamilyInv (heads : Pcb → Option Pcb) (s : Scheduler) : Prop where
  tree : KinTree heads (s.link Task.nextSibling) (s.link Task.parent) s.Alive
  zombie : ∀ p t, s.task p = some t → t.state = .zombie → heads p = none

theorem exists_of_map_unlinked {x : Option Task} (h : x.map Task.unlinked = (some t).map Task.unlinked) :
    ∃ t', x = some t' ∧ t'.unlinked = t.unlinked := by
  simpa using h

namespace Buried

variable (hb : Buried s s' c)

include hb

theorem link_eq (hp : p ≠ c) (hg : ∀ t, g (Task.unlinked t) = g t) : s'.link g p = s.link g p := by
  have := hb.other p hp
  cases ht : s.task p with
  | none =>
    rw [ht, Option.map_none, Option.map_eq_none_iff] at this
    simp [link, ht, this]
  | some t =>
    rw [ht] at this
    obtain ⟨t', ht', he⟩ := exists_of_map_unlinked this
    rw [link_of_task ht, link_of_task ht', Task.field_eq he g hg]

/-- A task that is alive afterwards is another one, as before but for its queue pointers. -/
theorem exists_of_alive (ht' : s'.task p = some t') (hl : t'.state ≠ .dead) :
    ∃ t, s.task p = some t ∧ t'.unlinked = t.unlinked := by
  obtain ⟨_, u', -, hu', hd, -⟩ := hb.self
  have hp : p ≠ c := by
    rintro rfl
    rw [ht', Option.some.injEq] at hu'
    exact hl (hu' ▸ hd)
  have := (hb.other p hp).symm
  rw [ht'] at this
  obtain ⟨t, ht, he⟩ := exists_of_map_unlinked this
  exact ⟨t, ht, he.symm⟩

theorem exists_other (hp : p ≠ c) (ht : s.task p = some t) :
    ∃ t', s'.task p = some t' ∧ t'.unlinked = t.unlinked := by
  have := hb.other p hp
  rw [ht] at this
  exact exists_of_map_unlinked this

theorem alive : s'.Alive p ↔ s.Alive p ∧ p ≠ c := by
  constructor
  · rintro ⟨t', ht', hl⟩
    obtain ⟨t, ht, he⟩ := hb.exists_of_alive ht' hl
    refine ⟨⟨t, ht, by rwa [Task.field_eq he Task.state fun _ => rfl] at hl⟩, ?_⟩
    rintro rfl
    obtain ⟨_, u', -, hu', hd, -⟩ := hb.self
    rw [ht', Option.some.injEq] at hu'
    exact hl (hu' ▸ hd)
  · rintro ⟨⟨t, ht, hl⟩, hp⟩
    obtain ⟨t', ht', he⟩ := hb.exists_other hp ht
    exact ⟨t', ht', by rwa [Task.field_eq he Task.state fun _ => rfl]⟩

end Buried

namespace FamilyInv

theorem congr (hf : FamilyInv heads s) (hheads : ∀ p, s.Alive p → heads' p = heads p) :
    FamilyInv heads' s := by
  constructor
  case tree =>
    exact hf.tree.congr (fun _ => Iff.rfl) hheads (fun _ _ => rfl) fun _ _ => rfl
  case zombie =>
    intro p t ht hz
    rw [hheads p ⟨t, ht, by simp [hz]⟩]
    exact hf.zombie p t ht hz

/-- Writing fields that are not of the tree. -/
theorem withTask (hf : FamilyInv heads s) (ht : s.task p = some t)
    (hsib : t'.nextSibling = t.nextSibling) (hparent : t'.parent = t.parent)
    (hstate : t'.state = t.state) : FamilyInv heads (s.withTask p t') := by
  constructor
  case tree =>
    rw [link_withTask_same ht hsib, link_withTask_same ht hparent]
    exact hf.tree.congr (fun q => alive_withTask_same ht (by rw [hstate])) (fun _ _ => rfl)
      (fun _ _ => rfl) fun _ _ => rfl
  case zombie =>
    intro q u hu hz
    rw [withTask_task] at hu
    split_ifs at hu with hq
    · rw [Option.some.injEq] at hu
      subst hu hq
      exact hf.zombie q t ht (hstate ▸ hz)
    · exact hf.zombie q u hu hz

/-- The first child of a list, which has no children, is buried. -/
theorem bury (hf : FamilyInv heads s) (hb : Buried s s' c) (hc : s.Alive c)
    (hleaf : heads c = none) (hp : s.Alive p) (hfirst : heads p = some c) :
    FamilyInv (Function.update heads p (s.link Task.nextSibling c)) s' := by
  constructor
  case tree =>
    apply hf.tree.removeLeaf hc hleaf fun q => hb.alive
    · intro q hq hqc
      by_cases hqp : q = p
      · rw [hqp, Function.update_self, if_pos hfirst]
      · rw [Function.update_of_ne hqp, if_neg]
        intro hqc'
        have hpc := (hf.tree.child_parent hp hfirst).2
        exact hqp (Option.some.inj ((hf.tree.child_parent hq hqc').2.symm.trans hpc))
    · intro w hw hwc
      rw [hb.link_eq hwc fun _ => rfl, if_neg (hf.tree.sib_ne_first hp hfirst hw)]
    · intro q _ hqc
      exact hb.link_eq hqc fun _ => rfl
  case zombie =>
    intro q t' ht' hz
    obtain ⟨t, ht, he⟩ := hb.exists_of_alive ht' (by simp [hz])
    rw [Task.field_eq he Task.state fun _ => rfl] at hz
    have hnone := hf.zombie q t ht hz
    rw [Function.update_of_ne, hnone]
    rintro rfl
    simp [hfirst] at hnone

end FamilyInv

/-- What the cascade below a task of rank `k` leaves of the others: it only relinks them
or makes them dead, and the dead ones are of higher rank. -/
structure Culled (rank : Pcb → Nat) (k : Nat) (s s' : Scheduler) : Prop where
  frame : { s' with task := s.task, deadTasksHead := s.deadTasksHead } = s
  task : ∀ p, (s'.task p).map Task.unlinked = (s.task p).map Task.unlinked ∨
    k < rank p ∧ ∃ t t', s.task p = some t ∧ t.state ≠ .dead ∧ s'.task p = some t' ∧
      t'.state = .dead ∧ t'.traits = t.traits

namespace Culled

theorem refl (s : Scheduler) : Culled rank k s s := ⟨rfl, fun _ => Or.inl rfl⟩

theorem trans (h : Culled rank k s s') (h' : Culled rank k s' s'') : Culled rank k s s'' := by
  refine ⟨?_, fun p => ?_⟩
  · have h₁ := h.frame
    have h₂ := h'.frame
    rw [← h₂] at h₁
    exact h₁
  · rcases h'.task p with h₂ | ⟨hk, t, t', ht, hl, ht', hd, hi⟩
    · rcases h.task p with h₁ | ⟨hk, t, t', ht, hl, ht', hd, hi⟩
      · exact Or.inl (h₂.trans h₁)
      · rw [ht'] at h₂
        obtain ⟨u, hu, he⟩ := exists_of_map_unlinked h₂
        refine Or.inr ⟨hk, t, u, ht, hl, hu, ?_, ?_⟩
        · rw [Task.field_eq he Task.state fun _ => rfl, hd]
        · rw [Task.field_eq he Task.traits fun _ => rfl, hi]
    · rcases h.task p with h₁ | ⟨-, u, u', -, -, hu', hd', -⟩
      · rw [ht] at h₁
        obtain ⟨u, hu, he⟩ := exists_of_map_unlinked h₁.symm
        refine Or.inr ⟨hk, u, t', hu, ?_, ht', hd, ?_⟩
        · rwa [Task.field_eq he Task.state fun _ => rfl]
        · rw [Task.field_eq he Task.traits fun _ => rfl, hi]
      · rw [ht, Option.some.injEq] at hu'
        exact absurd (hu' ▸ hd') hl

variable (h : Culled rank k s s')

include h

theorem currentTask : s'.currentTask = s.currentTask :=
  (congrArg Scheduler.currentTask h.frame :)

/-- A task that is not above rank `k` is as before but for its queue pointers. -/
theorem kept (hp : rank p ≤ k) : (s'.task p).map Task.unlinked = (s.task p).map Task.unlinked := by
  rcases h.task p with h | ⟨hk, -⟩
  · exact h
  · omega

/-- A task that is still alive is as before but for its queue pointers. -/
theorem of_alive (hp : s'.Alive p) :
    (s'.task p).map Task.unlinked = (s.task p).map Task.unlinked := by
  rcases h.task p with h | ⟨-, t, t', -, -, ht', hd, -⟩
  · exact h
  · obtain ⟨u, hu, hl⟩ := hp
    rw [ht', Option.some.injEq] at hu
    exact absurd (hu ▸ hd) hl

theorem exists_of_alive (ht' : s'.task p = some t') (hl : t'.state ≠ .dead) :
    ∃ t, s.task p = some t ∧ t'.unlinked = t.unlinked := by
  have := (h.of_alive ⟨t', ht', hl⟩).symm
  rw [ht'] at this
  obtain ⟨t, ht, he⟩ := exists_of_map_unlinked this
  exact ⟨t, ht, he.symm⟩

theorem alive (hp : s'.Alive p) : s.Alive p := by
  obtain ⟨t', ht', hl⟩ := hp
  obtain ⟨t, ht, he⟩ := h.exists_of_alive ht' hl
  exact ⟨t, ht, by rwa [Task.field_eq he Task.state fun _ => rfl] at hl⟩

theorem link_eq (hp : s'.Alive p) (hg : ∀ t, g (Task.unlinked t) = g t) :
    s'.link g p = s.link g p := by
  obtain ⟨t', ht', hl⟩ := hp
  obtain ⟨t, ht, he⟩ := h.exists_of_alive ht' hl
  rw [link_of_task ht, link_of_task ht', Task.field_eq he g hg]

theorem exists_kept (hp : rank p ≤ k) (ht : s.task p = some t) :
    ∃ t', s'.task p = some t' ∧ t'.unlinked = t.unlinked := by
  have := h.kept hp
  rw [ht] at this
  exact exists_of_map_unlinked this

theorem alive_kept (hp : rank p ≤ k) (ha : s.Alive p) : s'.Alive p := by
  obtain ⟨t, ht, hl⟩ := ha
  obtain ⟨t', ht', he⟩ := h.exists_kept hp ht
  exact ⟨t', ht', by rwa [Task.field_eq he Task.state fun _ => rfl]⟩

end Culled

open Classical in
/-- The tasks that are not dead and of rank above `k`. -/
noncomputable def below (s : Scheduler) (rank : Pcb → Nat) (k : Nat) : Finset Pcb :=
  (Finset.range taskLimit).filter fun p => s.Alive p ∧ k < rank p

theorem mem_below : p ∈ s.below rank k ↔ p < taskLimit ∧ s.Alive p ∧ k < rank p := by
  simp [below]

open Classical in
theorem below_card_le : (s.below rank k).card ≤ taskLimit := by
  unfold below
  exact (Finset.card_le_card (Finset.filter_subset _ _)).trans_eq (Finset.card_range _)

/-- Fewer tasks are left below `k'` in the second state when one of those below
`k` in the first is not among them. -/
theorem below_card_lt (hsub : ∀ p, s'.Alive p → s.Alive p) (hk : k ≤ k') (hc : s.Alive c)
    (hlimit : c < taskLimit) (hrank : k < rank c) (hgone : s'.Alive c → ¬ k' < rank c) :
    (s'.below rank k').card < (s.below rank k).card := by
  apply Finset.card_lt_card
  rw [Finset.ssubset_iff_of_subset]
  · exact ⟨c, mem_below.mpr ⟨hlimit, hc, hrank⟩, fun h => hgone (mem_below.mp h).2.1
      (mem_below.mp h).2.2⟩
  · intro p hp
    obtain ⟨hl, ha, hr⟩ := mem_below.mp hp
    exact mem_below.mpr ⟨hl, hsub p ha, by omega⟩

/-- A task that the cascade below it leaves without children and then buries. -/
theorem Culled.bury (h : Culled rank (rank c) s s') (hkc : k < rank c) (ht : s.task c = some t)
    (hl : t.state ≠ .dead) {u : Task} (hu : ∃ v, s'.task c = some v ∧ u.traits = v.traits)
    (hb : Buried (s'.withTask c u) s'' c) : Culled rank k s s'' := by
  refine ⟨?_, fun p => ?_⟩
  · have h₁ := h.frame
    have h₂ := hb.frame
    rw [← h₁]
    exact (congrArg (fun x : Scheduler =>
      { x with task := s.task, deadTasksHead := s.deadTasksHead }) h₂ :)
  · by_cases hp : p = c
    · subst hp
      obtain ⟨v, hv, htraits⟩ := hu
      obtain ⟨w, w', hw, hw', hd, hi⟩ := hb.self
      rw [withTask_task_self, Option.some.injEq] at hw
      obtain ⟨v', hv', he⟩ := h.exists_kept (Nat.le_refl _) ht
      rw [hv, Option.some.injEq] at hv'
      subst hv' hw
      refine Or.inr ⟨hkc, t, w', ht, hl, hw', hd, ?_⟩
      rw [hi, htraits, Task.field_eq he Task.traits fun _ => rfl]
    · have hother := hb.other p hp
      rw [withTask_task_of_ne hp] at hother
      rcases h.task p with h | ⟨hk, v, v', hv, hlv, hv', hd, hi⟩
      · exact Or.inl (hother.trans h)
      · rw [hv'] at hother
        obtain ⟨w, hw, he⟩ := exists_of_map_unlinked hother
        refine Or.inr ⟨by omega, v, w, hv, hlv, hw, ?_, ?_⟩
        · rw [Task.field_eq he Task.state fun _ => rfl, hd]
        · rw [Task.field_eq he Task.traits fun _ => rfl, hi]

theorem withTask_self (ht : s.task p = some t) : s.withTask p t = s := by
  have : Function.update s.task p (some t) = s.task := by
    rw [← ht, Function.update_eq_self]
  simp [withTask, this]

/-- The invariants and the ranks with which the cascade goes through the children of
`task`; `heads` is right for everything below. -/
structure Cascade (rank : Pcb → Nat) (heads : Pcb → Option Pcb) (task : Pcb) (s : Scheduler) :
    Prop where
  queue : QueueInv s
  family : FamilyInv heads s
  limit : ∀ p, s.Alive p → p < taskLimit
  alive : s.Alive task
  current : rank s.currentTask ≤ rank task
  depth : ∀ p q, s.Alive q → s.link Task.parent q = some p → rank q = rank p + 1
  first : ∀ p, s.Alive p → rank task < rank p → heads p = s.link Task.children p

/-- The next child when the first one has been buried. -/
theorem Cascade.next (h : Cascade rank heads task s) (hc : Culled rank (rank task) s s')
    (hq : QueueInv s') (hf : FamilyInv heads' s')
    (hheads : ∀ p, s'.Alive p → p ≠ task → heads' p = heads p) : Cascade rank heads' task s' := by
  constructor
  case queue => exact hq
  case family => exact hf
  case limit => exact fun p hp => h.limit p (hc.alive hp)
  case alive => exact hc.alive_kept (Nat.le_refl _) h.alive
  case current =>
    rw [hc.currentTask]
    exact h.current
  case depth =>
    intro p q ha hp
    rw [hc.link_eq ha fun _ => rfl] at hp
    exact h.depth p q (hc.alive ha) hp
  case first =>
    intro p hp hr
    have hpt : p ≠ task := by
      rintro rfl
      omega
    rw [hheads p hp hpt, h.first p (hc.alive hp) hr, hc.link_eq hp fun _ => rfl]

/-- `task_cleanup_children_on_exit` ends, with nothing left below the task. -/
theorem cleanupFrom_spec (fuel : Nat) (h : Cascade rank heads task s)
    (hfuel : (s.below rank (rank task)).card < fuel) :
    ∃ s', cleanupFrom fuel s (heads task) = some s' ∧ Culled rank (rank task) s s' ∧
      QueueInv s' ∧ FamilyInv (Function.update heads task none) s' := by
  induction fuel generalizing s heads task with
  | zero => omega
  | succ fuel ih =>
    cases hhead : heads task with
    | none =>
      refine ⟨s, rfl, .refl s, h.queue, h.family.congr fun p _ => ?_⟩
      by_cases hp : p = task
      · rw [hp, Function.update_self, hhead]
      · rw [Function.update_of_ne hp]
    | some c =>
      obtain ⟨hc, hparent⟩ := h.family.tree.child_parent h.alive hhead
      have hrank : rank c = rank task + 1 := h.depth task c hc hparent
      have hct : c ≠ task := by
        rintro rfl
        omega
      have hccur : c ≠ s.currentTask := by
        rintro rfl
        have := h.current
        omega
      obtain ⟨t, ht, hlive⟩ := id hc
      -- below the child first, unless it is a zombie or has no children
      have hbelow : ∃ s₁ u, (if t.state ≠ .zombie ∧ t.children ≠ none then do
            let s ← cleanupFrom fuel s t.children
            s.set c fun t => { t with children := none }
          else some s) = some (s₁.withTask c u) ∧ Culled rank (rank c) s s₁ ∧
          (∃ v, s₁.task c = some v ∧ u.traits = v.traits) ∧ u.nextSibling = t.nextSibling ∧
          u.state ≠ .dead ∧ QueueInv (s₁.withTask c u) ∧
          FamilyInv (Function.update heads c none) (s₁.withTask c u) := by
        split_ifs with hguard
        · have hcascade : Cascade rank heads c s := by
            refine ⟨h.queue, h.family, h.limit, hc, by have := h.current; omega, h.depth, ?_⟩
            intro p hp hr
            exact h.first p hp (by omega)
          have hless : (s.below rank (rank c)).card < (s.below rank (rank task)).card :=
            below_card_lt (fun _ hp => hp) (by omega) hc (h.limit c hc) (by omega) (by omega)
          obtain ⟨s₁, hrun, hculled, hq, hf⟩ := ih hcascade (by omega)
          have hchildren : heads c = t.children := by
            rw [h.first c hc (by omega), link_of_task ht]
          obtain ⟨v, hv, he⟩ := hculled.exists_kept (Nat.le_refl _) ht
          have hstate : v.state = t.state := Task.field_eq he Task.state fun _ => rfl
          refine ⟨s₁, { v with children := none }, ?_, hculled, ⟨v, hv, rfl⟩, ?_, ?_, ?_, ?_⟩
          · rw [← hchildren, hrun]
            exact set_of_task hv _
          · exact Task.field_eq he Task.nextSibling fun _ => rfl
          · rw [hstate]
            exact hlive
          · exact hq.withTask hv rfl rfl rfl Iff.rfl
          · exact hf.withTask hv rfl rfl rfl
        · have hnone : heads c = none := by
            by_cases hz : t.state = .zombie
            · exact h.family.zombie c t ht hz
            · rw [h.first c hc (by omega), link_of_task ht]
              by_contra hne
              exact hguard ⟨hz, hne⟩
          refine ⟨s, t, by rw [withTask_self ht], .refl s, ⟨t, ht, rfl⟩, rfl, hlive, ?_, ?_⟩
          · rw [withTask_self ht]
            exact h.queue
          · rw [withTask_self ht]
            apply h.family.congr
            intro p _
            by_cases hp : p = c
            · rw [hp, Function.update_self, hnone]
            · rw [Function.update_of_ne hp]
      obtain ⟨s₁, u, hrun, hculled, htraits, hsib, hulive, hq₁, hf₁⟩ := hbelow
      -- then the child itself
      have hcur₁ : c ≠ (s₁.withTask c u).currentTask := by
        rw [withTask_currentTask, hculled.currentTask]
        exact hccur
      have hcalive : (s₁.withTask c u).Alive c := ⟨u, withTask_task_self, hulive⟩
      obtain ⟨s₂, hkill, hburied, hq₂⟩ := killChild_spec hq₁ hcalive hcur₁
      have hculled₂ : Culled rank (rank task) s s₂ :=
        hculled.bury (by omega) ht hlive htraits hburied
      have htask₁ : (s₁.withTask c u).Alive task := by
        rw [alive_withTask, if_neg hct.symm]
        exact hculled.alive_kept (by omega) h.alive
      have hf₂ := hf₁.bury hburied hcalive (Function.update_self ..) htask₁
        (by rw [Function.update_of_ne hct.symm, hhead])
      rw [link_of_task withTask_task_self, hsib] at hf₂
      have hdead : ¬ s₂.Alive c := by
        obtain ⟨_, w, _, hw, hd, _⟩ := hburied.self
        rintro ⟨w', hw', hl⟩
        rw [hw, Option.some.injEq] at hw'
        exact hl (hw' ▸ hd)
      -- and then the children that follow
      have hnext := h.next hculled₂ hq₂ hf₂ (by
        intro p hp hpt
        rw [Function.update_of_ne hpt, Function.update_of_ne]
        rintro rfl
        exact hdead hp)
      have hless : (s₂.below rank (rank task)).card < (s.below rank (rank task)).card :=
        below_card_lt (fun _ hp => hculled₂.alive hp) (Nat.le_refl _) hc (h.limit c hc) (by omega)
          (fun ha => absurd ha hdead)
      obtain ⟨s₃, hloop, hculled₃, hq₃, hf₃⟩ := ih hnext (by omega)
      rw [Function.update_self] at hloop
      refine ⟨s₃, ?_, hculled₂.trans hculled₃, hq₃, hf₃.congr fun p hp => ?_⟩
      · have hndead : ¬ t.state = .dead := hlive
        simp only [Option.bind_eq_bind] at hrun
        simp only [cleanupFrom, ht, Option.bind_eq_bind, Option.bind_some, if_neg hndead]
        rw [hrun]
        simp only [Option.bind_some, hkill, hloop]
      · by_cases hpt : p = task
        · simp [hpt]
        · have hpc : p ≠ c := by
            rintro rfl
            exact hdead (hculled₃.alive hp)
          simp [hpt, hpc]

end Scheduler
end EnclaveOS

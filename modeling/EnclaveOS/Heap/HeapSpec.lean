import EnclaveOS.Foundation.BuddyTree
import EnclaveOS.Heap.Heap
import Mathlib.Data.Nat.Bitwise

/-!
# HeapSpec - the array of the heap as a buddy tree

The children of node `m` are the nodes `2 * m` and `2 * m + 1`.  The array
represents a buddy tree; the search and the halving loop of `kmalloc`
allocate in that tree, and the coalescing loop of `kfree` releases.
-/

namespace EnclaveOS

/-- The node `m` is at most `n` levels below `node`. -/
def Below (n node m : Nat) : Prop := ∃ k ≤ n, m / 2 ^ k = node

namespace Below

variable {n node m : Nat}

theorem self (n node : Nat) : Below n node node :=
  ⟨0, Nat.zero_le _, Nat.div_one _⟩

theorem child {b : Nat} (hb : b < 2) (h : Below n (node * 2 + b) m) : Below (n + 1) node m := by
  obtain ⟨k, hk, hm⟩ := h
  refine ⟨k + 1, by omega, ?_⟩
  rw [pow_succ, ← Nat.div_div_eq_div_mul, hm]
  omega

theorem cases (h : Below (n + 1) node m) :
    m = node ∨ Below n (node * 2) m ∨ Below n (node * 2 + 1) m := by
  obtain ⟨k, hk, hm⟩ := h
  cases k with
  | zero =>
    left
    rwa [pow_zero, Nat.div_one] at hm
  | succ k =>
    right
    rw [pow_succ, ← Nat.div_div_eq_div_mul] at hm
    by_cases hbit : m / 2 ^ k = node * 2
    · exact Or.inl ⟨k, by omega, hbit⟩
    · exact Or.inr ⟨k, by omega, by omega⟩

/-- A node is between the first and the last node of its row below an ancestor. -/
theorem bounds {k : Nat} (h : m / 2 ^ k = node) : node * 2 ^ k ≤ m ∧ m < (node + 1) * 2 ^ k := by
  have hpos : 0 < 2 ^ k := Nat.two_pow_pos k
  rw [← h]
  exact ⟨Nat.div_mul_le_self m _, (Nat.div_lt_iff_lt_mul hpos).mp (Nat.lt_succ_self _)⟩

theorem le (h : Below n node m) : node ≤ m := by
  obtain ⟨k, -, hm⟩ := h
  rw [← hm]
  exact Nat.div_le_self m _

theorem ne_of_not (h : ¬Below n node m) : m ≠ node := by
  rintro rfl
  exact h (self _ _)

/-- The subtrees of the two children share no node. -/
theorem left_right (hnode : 1 ≤ node) (hl : Below n (node * 2) m) :
    ¬Below n (node * 2 + 1) m := by
  rintro ⟨k', -, hr⟩
  obtain ⟨k, -, hl⟩ := hl
  obtain ⟨hl₁, hl₂⟩ := bounds hl
  obtain ⟨hr₁, hr₂⟩ := bounds hr
  obtain hlt | heq | hgt := lt_trichotomy k k'
  · have hpow : 2 ^ k ≤ 2 ^ k' := Nat.pow_le_pow_right (by decide) hlt.le
    have hmul := Nat.mul_le_mul_left (node * 2 + 1) hpow
    omega
  · rw [heq] at hl
    omega
  · have hpow : 2 ^ k' * 2 ≤ 2 ^ k := by
      rw [← pow_succ]
      exact Nat.pow_le_pow_right (by decide) hgt
    have hmul := Nat.mul_le_mul_left (node + 1) hpow
    have hmul' : (node + 1) * 2 ^ k ≤ node * 2 * 2 ^ k :=
      Nat.mul_le_mul_right _ (by omega)
    have heq : (node * 2 + 1 + 1) * 2 ^ k' = (node + 1) * (2 ^ k' * 2) := by ring
    omega

end Below

/-- A node of the left half, counted from the parent. -/
theorem node_left {n target : Nat} (hle : target ≤ n) (node start : Nat) :
    node * 2 ^ (n + 1 - target) + start / 2 ^ target =
      node * 2 * 2 ^ (n - target) + start / 2 ^ target := by
  rw [show n + 1 - target = n - target + 1 by omega, pow_succ]
  ring

/-- A node of the right half, counted from the parent. -/
theorem node_right {n target : Nat} (hle : target ≤ n) (node start : Nat) :
    node * 2 ^ (n + 1 - target) + (2 ^ n + start) / 2 ^ target =
      (node * 2 + 1) * 2 ^ (n - target) + start / 2 ^ target := by
  have hpow : 2 ^ n = 2 ^ (n - target) * 2 ^ target := by
    rw [← pow_add, Nat.sub_add_cancel hle]
  rw [node_left hle, hpow, Nat.add_comm _ start,
    Nat.add_mul_div_right _ _ (Nat.two_pow_pos target)]
  ring

/-- Every node strictly below `node` is unused. -/
def UnusedBelow (tree : HeapTree) (n node : Nat) : Prop :=
  ∀ m, Below n node m → m ≠ node → tree m = .unused

/-- The array represents a buddy tree of `2 ^ n` pages at a node. -/
def Rep (tree : HeapTree) : {n : Nat} → BuddyTree n → Nat → Prop
  | n, .free, node => tree node = .free ∧ UnusedBelow tree n node
  | n, .taken, node => tree node = .alloc ∧ UnusedBelow tree n node
  | _ + 1, .split l r, node =>
    tree node = .split ∧ Rep tree l (node * 2) ∧ Rep tree r (node * 2 + 1)

section Represents

variable {tree tree' : HeapTree} {n node : Nat} {t : BuddyTree n}

theorem UnusedBelow.child (h : UnusedBelow tree (n + 1) node) (hnode : 1 ≤ node) {b : Nat}
    (hb : b < 2) : tree (node * 2 + b) = .unused ∧ UnusedBelow tree n (node * 2 + b) := by
  refine ⟨h _ ((Below.self n _).child hb) (by omega), fun m hm hne => h m (hm.child hb) ?_⟩
  have hle := hm.le
  omega

theorem UnusedBelow.congr (h : UnusedBelow tree n node)
    (hsame : ∀ m, Below n node m → m ≠ node → tree' m = tree m) : UnusedBelow tree' n node :=
  fun m hm hne => (hsame m hm hne).trans (h m hm hne)

namespace Rep

theorem congr (h : Rep tree t node) (hsame : ∀ m, Below n node m → tree' m = tree m) :
    Rep tree' t node := by
  induction t generalizing node with
  | free => exact ⟨(hsame _ (.self _ _)).trans h.1, h.2.congr fun m hm _ => hsame m hm⟩
  | taken => exact ⟨(hsame _ (.self _ _)).trans h.1, h.2.congr fun m hm _ => hsame m hm⟩
  | split l r ihl ihr =>
    exact ⟨(hsame _ (.self _ _)).trans h.1,
      ihl h.2.1 fun m hm => hsame m (hm.child (b := 0) (by decide)),
      ihr h.2.2 fun m hm => hsame m (hm.child (b := 1) (by decide))⟩

theorem root_ne_unused (h : Rep tree t node) : tree node ≠ .unused := by
  cases t with
  | free => simp [h.1]
  | taken => simp [h.1]
  | split => simp [h.1]

theorem free_iff (h : Rep tree t node) : tree node = .free ↔ t = .free := by
  cases t with
  | free => simp [h.1]
  | taken => simp [h.1]
  | split => simp [h.1]

/-- A tree is represented by one array. -/
theorem unique (h : Rep tree t node) (h' : Rep tree' t node) {m : Nat} (hm : Below n node m) :
    tree m = tree' m := by
  induction t generalizing node m with
  | free =>
    by_cases hne : m = node
    · rw [hne, h.1, h'.1]
    · rw [h.2 m hm hne, h'.2 m hm hne]
  | taken =>
    by_cases hne : m = node
    · rw [hne, h.1, h'.1]
    · rw [h.2 m hm hne, h'.2 m hm hne]
  | split l r ihl ihr =>
    obtain rfl | hm | hm := hm.cases
    · rw [h.1, h'.1]
    · exact ihl h.2.1 h'.2.1 hm
    · exact ihr h.2.2 h'.2.2 hm

end Rep

/-- The halving loop, started at a free block. -/
theorem splitDown_spec {target : Nat} (hle : target ≤ n) (hnode : 1 ≤ node)
    (hbelow : UnusedBelow tree n node) :
    ∃ curr, (splitDown (n - target) tree node).2 = curr ∧ curr = node * 2 ^ (n - target) ∧
      Rep (Function.update (splitDown (n - target) tree node).1 curr .alloc)
        (BuddyTree.carve target n) node ∧
      ∀ m, ¬Below n node m →
        Function.update (splitDown (n - target) tree node).1 curr .alloc m = tree m := by
  induction n generalizing tree node with
  | zero =>
    obtain rfl : target = 0 := by omega
    refine ⟨node, rfl, by simp, ⟨Function.update_self _ _ _, fun m hm hne => ?_⟩, fun m hm => ?_⟩
    · exact (Function.update_of_ne hne _ _).trans (hbelow m hm hne)
    · exact Function.update_of_ne (Below.ne_of_not hm) _ _
  | succ n ih =>
    by_cases htop : n + 1 ≤ target
    · obtain rfl : target = n + 1 := by omega
      rw [Nat.sub_self, BuddyTree.carve, if_pos htop]
      refine ⟨node, rfl, by simp, ⟨Function.update_self _ _ _, fun m hm hne => ?_⟩,
        fun m hm => ?_⟩
      · exact (Function.update_of_ne hne _ _).trans (hbelow m hm hne)
      · exact Function.update_of_ne (Below.ne_of_not hm) _ _
    · have hsub : n + 1 - target = n - target + 1 := by omega
      rw [hsub, BuddyTree.carve, if_neg htop]
      dsimp only [splitDown]
      -- the node is split, its right half is free, and the loop goes on in the left half
      have hstep : ∀ m, m ≠ node → m ≠ node * 2 + 1 →
          Function.update (Function.update tree node .split) (node * 2 + 1) .free m = tree m := by
        intro m hm hm'
        rw [Function.update_of_ne hm', Function.update_of_ne hm]
      have hleft := (hbelow.child hnode (b := 0) (by decide)).2
      have hright := (hbelow.child hnode (b := 1) (by decide)).2
      have hleft' : UnusedBelow (Function.update (Function.update tree node .split)
          (node * 2 + 1) .free) n (node * 2) :=
        hleft.congr fun m hm _ => hstep m (by have := hm.le; omega) fun heq =>
          Below.left_right hnode hm (heq ▸ .self _ _)
      obtain ⟨curr, hcurr, hval, hrep, hframe⟩ := ih (by omega) (by omega) hleft'
      refine ⟨curr, hcurr, ?_, ⟨?_, hrep, ?_, fun m hm hne => ?_⟩, fun m hm => ?_⟩
      · rw [hval, pow_succ]
        ring
      · rw [hframe node fun h => by have := h.le; omega,
          Function.update_of_ne (by omega), Function.update_self]
      · rw [hframe _ fun h => Below.left_right hnode h (.self _ _), Function.update_self]
      · rw [hframe m fun h => Below.left_right hnode h hm,
          hstep m (by have := hm.le; omega) hne]
        exact hright m hm hne
      · rw [hframe m fun h => hm (h.child (b := 0) (by decide)),
          hstep m (Below.ne_of_not hm)
            (fun heq => hm (heq ▸ (Below.self n _).child (b := 1) (by decide)))]

/-- Below a split node that is larger than the target, the left half is searched first. -/
theorem findFree_split {target : Nat} (hroot : tree node = .split) (htop : n + 1 ≠ target) :
    findFree tree target (n + 1) node =
      match findFree tree target n (node * 2) with
      | some left => some left
      | none => findFree tree target n (node * 2 + 1) := by
  conv_lhs => unfold findFree
  rw [hroot]
  exact if_neg htop

/-- The search finds the block that allocation in the tree takes, and the halving loop
from there gives the tree after the allocation. -/
theorem findFree_spec {target : Nat} (h : Rep tree t node) (hle : target ≤ n) (hnode : 1 ≤ node) :
    match t.allocate target with
    | none => findFree tree target n node = none
    | some (t', start) => ∃ found depth,
        findFree tree target n node = some found ∧ depth ≤ n - target ∧
        found / 2 ^ depth = node ∧
        (splitDown (n - depth - target) tree found).2 =
          node * 2 ^ (n - target) + start / 2 ^ target ∧
        Rep (Function.update (splitDown (n - depth - target) tree found).1
          (node * 2 ^ (n - target) + start / 2 ^ target) .alloc) t' node ∧
        ∀ m, ¬Below n node m → Function.update (splitDown (n - depth - target) tree found).1
          (node * 2 ^ (n - target) + start / 2 ^ target) .alloc m = tree m := by
  induction t generalizing node with
  | @free n =>
    dsimp only [BuddyTree.allocate]
    obtain ⟨curr, hcurr, hval, hrep, hframe⟩ := splitDown_spec hle hnode h.2
    have hpos : node * 2 ^ (n - target) + 0 / 2 ^ target = curr := by
      rw [Nat.zero_div, Nat.add_zero, hval]
    refine ⟨node, 0, ?_, Nat.zero_le _, by simp, ?_, ?_, ?_⟩
    · unfold findFree
      rw [h.1]
    · rw [hpos, Nat.sub_zero]
      exact hcurr
    · rw [hpos, Nat.sub_zero]
      exact hrep
    · rw [hpos, Nat.sub_zero]
      exact hframe
  | taken =>
    dsimp only [BuddyTree.allocate]
    unfold findFree
    rw [h.1]
  | @split n l r ihl ihr =>
    obtain ⟨hroot, hl, hr⟩ := h
    unfold BuddyTree.allocate
    by_cases htop : n + 1 = target
    · rw [if_pos htop]
      dsimp only
      unfold findFree
      rw [hroot]
      dsimp only
      rw [if_pos htop]
    rw [if_neg htop]
    have hle' : target ≤ n := by omega
    have hfind := findFree_split hroot htop
    have ihl := ihl hl hle' (by omega)
    have ihr := ihr hr hle' (by omega)
    cases hal : l.allocate target with
    | some res =>
      obtain ⟨l', start⟩ := res
      rw [hal] at ihl
      obtain ⟨found, depth, hfound, hdepth, hdiv, hcurr, hrep, hframe⟩ := ihl
      have hlevel : n + 1 - (depth + 1) - target = n - depth - target := by omega
      refine ⟨found, depth + 1, ?_, by omega, ?_, ?_, ?_, ?_⟩
      · rw [hfind, hfound]
      · rw [pow_succ, ← Nat.div_div_eq_div_mul, hdiv]
        omega
      · rw [hlevel, node_left hle']
        exact hcurr
      · rw [hlevel, node_left hle']
        refine ⟨?_, hrep, hr.congr fun m hm => hframe m fun hm' => ?_⟩
        · rw [hframe node fun h => by have := h.le; omega]
          exact hroot
        · exact Below.left_right hnode hm' hm
      · rw [hlevel, node_left hle']
        exact fun m hm => hframe m fun hm' => hm (hm'.child (b := 0) (by decide))
    | none =>
      rw [hal] at ihl
      cases har : r.allocate target with
      | none =>
        rw [har] at ihr
        dsimp only at ihl ihr ⊢
        rw [hfind, ihl, ihr]
      | some res =>
        obtain ⟨r', start⟩ := res
        rw [har] at ihr
        obtain ⟨found, depth, hfound, hdepth, hdiv, hcurr, hrep, hframe⟩ := ihr
        have hlevel : n + 1 - (depth + 1) - target = n - depth - target := by omega
        refine ⟨found, depth + 1, ?_, by omega, ?_, ?_, ?_, ?_⟩
        · rw [hfind, ihl]
          exact hfound
        · rw [pow_succ, ← Nat.div_div_eq_div_mul, hdiv]
          omega
        · rw [hlevel, node_right hle']
          exact hcurr
        · rw [hlevel, node_right hle']
          refine ⟨?_, hl.congr fun m hm => hframe m fun hm' => ?_, hrep⟩
          · rw [hframe node fun h => by have := h.le; omega]
            exact hroot
          · exact Below.left_right hnode hm hm'
        · rw [hlevel, node_right hle']
          exact fun m hm => hframe m fun hm' => hm (hm'.child (b := 1) (by decide))

theorem buddy_left (node : Nat) : (node * 2) ^^^ 1 = node * 2 + 1 :=
  Nat.xor_one_of_even ⟨node, by ring⟩

theorem buddy_right (node : Nat) : (node * 2 + 1) ^^^ 1 = node * 2 := by
  rw [Nat.xor_one_of_odd ⟨node, by ring⟩, Nat.add_sub_cancel]

/-- One round of the coalescing loop at a free child, which is the child `b` of a
node whose children are represented: the buddies join, or the loop ends. -/
theorem coalesce_join {l r : BuddyTree n} {b : Nat} (extra : Nat) (hnode : 1 ≤ node) (hb : b < 2)
    (hroot : tree node = .split) (hl : Rep tree l (node * 2)) (hr : Rep tree r (node * 2 + 1))
    (hfree : if b = 0 then l = .free else r = .free) :
    ∃ tree', (∀ m, ¬Below (n + 1) node m → tree' m = tree m) ∧
      Rep tree' (BuddyTree.join l r) node ∧
      ((BuddyTree.join l r = .free →
          coalesce (extra + 1) tree (node * 2 + b) = coalesce extra tree' node) ∧
        (BuddyTree.join l r ≠ .free → coalesce (extra + 1) tree (node * 2 + b) = tree')) := by
  have hchild : Below (n + 1) node (node * 2) := (Below.self n _).child (b := 0) (by decide)
  have hchild' : Below (n + 1) node (node * 2 + 1) := (Below.self n _).child (b := 1) (by decide)
  by_cases hboth : l = .free ∧ r = .free
  · obtain ⟨rfl, rfl⟩ := hboth
    -- both children become unused and the node free
    refine ⟨Function.update (Function.update (Function.update tree (node * 2) .unused)
      (node * 2 + 1) .unused) node .free, fun m hm => ?_, ⟨Function.update_self _ _ _,
      fun m hm hne => ?_⟩, fun _ => ?_, fun hne => absurd rfl hne⟩
    · rw [Function.update_of_ne (Below.ne_of_not hm), Function.update_of_ne, Function.update_of_ne]
      · rintro rfl
        exact hm hchild
      · rintro rfl
        exact hm hchild'
    · rw [Function.update_of_ne hne, Function.update_apply, Function.update_apply]
      obtain hm | hm | hm := hm.cases
      · exact absurd hm hne
      · split_ifs with hm₁ hm₂
        · rfl
        · rfl
        · exact hl.2 m hm hm₂
      · split_ifs with hm₁ hm₂
        · rfl
        · rfl
        · exact hr.2 m hm hm₁
    · obtain rfl | rfl : b = 0 ∨ b = 1 := by omega
      · rw [coalesce, if_pos (by omega), Nat.add_zero, buddy_left, if_pos hr.1,
          Nat.mul_div_cancel _ (by decide)]
      · rw [coalesce, if_pos (by omega), buddy_right, if_pos hl.1,
          show (node * 2 + 1) / 2 = node by omega,
          Function.update_comm (show node * 2 + 1 ≠ node * 2 by omega)]
  · rw [BuddyTree.join_of_ne hboth]
    refine ⟨tree, fun _ _ => rfl, ⟨hroot, hl, hr⟩, by simp, fun _ => ?_⟩
    rw [coalesce, if_pos (by omega)]
    obtain rfl | rfl : b = 0 ∨ b = 1 := by omega
    · rw [if_pos rfl] at hfree
      rw [Nat.add_zero, buddy_left, if_neg fun h => hboth ⟨hfree, hr.free_iff.mp h⟩]
    · rw [if_neg (by decide)] at hfree
      rw [buddy_right, if_neg fun h => hboth ⟨hl.free_iff.mp h, hfree⟩]

/-- The coalescing loop, started at the node of a block that was just freed: inside the
subtree it gives the tree after the release, and it leaves the subtree when that is
free. -/
theorem coalesce_spec {start target : Nat} (h : Rep tree t node) (hnode : 1 ≤ node)
    (hblock : t.HasBlock start target) (extra : Nat) :
    ∃ tree', (∀ m, ¬Below n node m → tree' m = tree m) ∧ Rep tree' (t.release start) node ∧
      (t.release start = .free →
        coalesce (n - target + extra) (Function.update tree (node * 2 ^ (n - target) +
          start / 2 ^ target) .free) (node * 2 ^ (n - target) + start / 2 ^ target) =
          coalesce extra tree' node) ∧
      (t.release start ≠ .free →
        coalesce (n - target + extra) (Function.update tree (node * 2 ^ (n - target) +
          start / 2 ^ target) .free) (node * 2 ^ (n - target) + start / 2 ^ target) = tree') := by
  induction t generalizing tree node start extra with
  | free => exact hblock.elim
  | @taken n =>
    obtain ⟨rfl, rfl⟩ := hblock
    refine ⟨Function.update tree node .free, fun m hm =>
      Function.update_of_ne (Below.ne_of_not hm) _ _, ⟨Function.update_self _ _ _,
      fun m hm hne => ?_⟩, fun _ => ?_, fun hne => absurd rfl hne⟩
    · rw [Function.update_of_ne hne]
      exact h.2 m hm hne
    · simp
  | @split n l r ihl ihr =>
    obtain ⟨hroot, hl, hr⟩ := h
    have hlevel : target ≤ n := by
      obtain hb | ⟨-, hb⟩ := hblock
      · exact hb.level_le
      · exact hb.level_le
    have hsub : n + 1 - target + extra = n - target + (extra + 1) := by omega
    rw [hsub, BuddyTree.release]
    obtain hblock | ⟨hge, hblock⟩ := hblock
    · rw [if_pos hblock.lt, node_left hlevel]
      obtain ⟨tree₁, hframe, hrep, hfree, hne⟩ := ihl hl (by omega) hblock (extra + 1)
      have hroot₁ : tree₁ node = .split := by
        rw [hframe node fun h => by have := h.le; omega]
        exact hroot
      have hr₁ : Rep tree₁ r (node * 2 + 1) :=
        hr.congr fun m hm => hframe m fun hm' => Below.left_right hnode hm' hm
      have hout : ∀ m, ¬Below (n + 1) node m → tree₁ m = tree m :=
        fun m hm => hframe m fun hm' => hm (hm'.child (b := 0) (by decide))
      by_cases hl₁ : l.release start = .free
      · obtain ⟨tree₂, hframe₂, hrep₂, hcase⟩ := coalesce_join (b := 0) extra hnode
          (by decide) hroot₁ hrep hr₁ (by rw [if_pos rfl]; exact hl₁)
        refine ⟨tree₂, fun m hm => (hframe₂ m hm).trans (hout m hm), hrep₂, ?_⟩
        rw [hfree hl₁]
        exact hcase
      · refine ⟨tree₁, hout, ?_, ?_, fun _ => hne hl₁⟩
        · rw [BuddyTree.join_of_ne fun h => hl₁ h.1]
          exact ⟨hroot₁, hrep, hr₁⟩
        · rw [BuddyTree.join_of_ne fun h => hl₁ h.1]
          intro h
          cases h
    · have hstart : node * 2 ^ (n + 1 - target) + start / 2 ^ target =
          (node * 2 + 1) * 2 ^ (n - target) + (start - 2 ^ n) / 2 ^ target := by
        rw [← node_right hlevel, Nat.add_sub_cancel' hge]
      rw [if_neg (by omega), hstart]
      obtain ⟨tree₁, hframe, hrep, hfree, hne⟩ := ihr hr (by omega) hblock (extra + 1)
      have hroot₁ : tree₁ node = .split := by
        rw [hframe node fun h => by have := h.le; omega]
        exact hroot
      have hl₁ : Rep tree₁ l (node * 2) :=
        hl.congr fun m hm => hframe m fun hm' => Below.left_right hnode hm hm'
      have hout : ∀ m, ¬Below (n + 1) node m → tree₁ m = tree m :=
        fun m hm => hframe m fun hm' => hm (hm'.child (b := 1) (by decide))
      by_cases hr₁ : r.release (start - 2 ^ n) = .free
      · obtain ⟨tree₂, hframe₂, hrep₂, hcase⟩ := coalesce_join (b := 1) extra hnode
          (by decide) hroot₁ hl₁ hrep (by rw [if_neg (by decide)]; exact hr₁)
        refine ⟨tree₂, fun m hm => (hframe₂ m hm).trans (hout m hm), hrep₂, ?_⟩
        rw [hfree hr₁]
        exact hcase
      · refine ⟨tree₁, hout, ?_, ?_, fun _ => hne hr₁⟩
        · rw [BuddyTree.join_of_ne fun h => hr₁ h.2]
          exact ⟨hroot₁, hl₁, hrep⟩
        · rw [BuddyTree.join_of_ne fun h => hr₁ h.2]
          intro h
          cases h

theorem Below.mono {m n' : Nat} (h : Below n node m) (hle : n ≤ n') : Below n' node m := by
  obtain ⟨k, hk, hm⟩ := h
  exact ⟨k, hk.trans hle, hm⟩

theorem Below.trans {m m' k : Nat} (h : Below n node m) (hm : m' / 2 ^ k = m) :
    Below (k + n) node m' := by
  obtain ⟨j, hj, hj'⟩ := h
  refine ⟨k + j, by omega, ?_⟩
  rw [pow_add, ← Nat.div_div_eq_div_mul, hm, hj']

/-- The node is a free or an allocated block. -/
def IsBlock (tree : HeapTree) (m : Nat) : Prop := tree m = .free ∨ tree m = .alloc

theorem lt_of_strictly_below {m m' k : Nat} (hm : 1 ≤ m) (hk : 0 < k) (h : m' / 2 ^ k = m) :
    m < m' := by
  obtain ⟨hlow, -⟩ := Below.bounds h
  have hpow : 2 ^ 1 ≤ 2 ^ k := Nat.pow_le_pow_right (by decide) hk
  have hmul := Nat.mul_le_mul_left m hpow
  omega

namespace Rep

/-- A split node above the last row has two children in use. -/
theorem children_used {m : Nat} (h : Rep tree t node) (hm : Below n node m)
    (hsplit : tree m = .split) :
    tree (m * 2) ≠ .unused ∧ tree (m * 2 + 1) ≠ .unused := by
  induction t generalizing node with
  | free =>
    by_cases hne : m = node
    · simp [hne, h.1] at hsplit
    · simp [h.2 m hm hne] at hsplit
  | taken =>
    by_cases hne : m = node
    · simp [hne, h.1] at hsplit
    · simp [h.2 m hm hne] at hsplit
  | split l r ihl ihr =>
    obtain rfl | hm | hm := hm.cases
    · exact ⟨h.2.1.root_ne_unused, h.2.2.root_ne_unused⟩
    · exact ihl h.2.1 hm
    · exact ihr h.2.2 hm

/-- In a canonical tree no two children are both free. -/
theorem not_buddies_free {p : Nat} (h : Rep tree t node) (hc : t.Canonical)
    (hp : Below n node (p * 2)) (hne : p * 2 ≠ node) :
    ¬(tree (p * 2) = .free ∧ tree (p * 2 + 1) = .free) := by
  induction t generalizing node with
  | free => simp [h.2 _ hp hne]
  | taken => simp [h.2 _ hp hne]
  | split l r ihl ihr =>
    obtain ⟨-, hl, hr⟩ := h
    obtain heq | hp | hp := hp.cases
    · exact absurd heq hne
    · obtain heq | hne' := eq_or_ne (p * 2) (node * 2)
      · obtain rfl : p = node := by omega
        rw [hl.free_iff, hr.free_iff]
        exact hc.1
      · exact ihl hl hc.2.1 hp hne'
    · exact ihr hr hc.2.2 hp (by omega)

/-- No node of the last row is split. -/
theorem bottom_ne_split {m : Nat} (h : Rep tree t node) (hm : m / 2 ^ n = node) :
    tree m ≠ .split := by
  induction t generalizing node with
  | @free n =>
    by_cases hne : m = node
    · simp [hne, h.1]
    · simp [h.2 m ⟨n, le_rfl, hm⟩ hne]
  | @taken n =>
    by_cases hne : m = node
    · simp [hne, h.1]
    · simp [h.2 m ⟨n, le_rfl, hm⟩ hne]
  | @split n l r ihl ihr =>
    rw [pow_succ, ← Nat.div_div_eq_div_mul] at hm
    obtain hbit | hbit : m / 2 ^ n = node * 2 ∨ m / 2 ^ n = node * 2 + 1 := by omega
    · exact ihl h.2.1 hbit
    · exact ihr h.2.2 hbit

/-- Everything below a block is unused. -/
theorem below_block {m m' k : Nat} (h : Rep tree t node) (hnode : 1 ≤ node)
    (hm : Below n node m) (hblock : IsBlock tree m) (hk : 0 < k)
    (hbelow : m' / 2 ^ k = m) (hm' : Below n node m') : tree m' = .unused := by
  induction t generalizing node with
  | free =>
    obtain rfl | hne := eq_or_ne m node
    · exact h.2 m' hm' (lt_of_strictly_below hnode hk hbelow).ne'
    · simp [IsBlock, h.2 m hm hne] at hblock
  | taken =>
    obtain rfl | hne := eq_or_ne m node
    · exact h.2 m' hm' (lt_of_strictly_below hnode hk hbelow).ne'
    · simp [IsBlock, h.2 m hm hne] at hblock
  | @split n l r ihl ihr =>
    have hlt : m < m' := lt_of_strictly_below (hnode.trans hm.le) hk hbelow
    have hle := hm.le
    obtain rfl | hm := hm.cases
    · simp [IsBlock, h.1] at hblock
    obtain rfl | hm' := hm'.cases
    · omega
    -- the two nodes are in the same half
    obtain hm | hm := hm
    · obtain hm' | hm' := hm'
      · exact ihl h.2.1 (by omega) hm hm'
      · exact absurd (hm'.mono (Nat.le_add_left n k)) (Below.left_right hnode (hm.trans hbelow))
    · obtain hm' | hm' := hm'
      · exact absurd (hm.trans hbelow) (Below.left_right hnode (hm'.mono (Nat.le_add_left n k)))
      · exact ihr h.2.2 (by omega) hm hm'

/-- The node of a taken block is in the subtree. -/
theorem below_blockNode {start level : Nat} (h : t.HasBlock start level) (node : Nat) :
    Below n node (node * 2 ^ (n - level) + start / 2 ^ level) := by
  have hlt : start / 2 ^ level < 2 ^ (n - level) := by
    rw [Nat.div_lt_iff_lt_mul (Nat.two_pow_pos level), ← pow_add,
      Nat.sub_add_cancel h.level_le]
    exact h.lt
  refine ⟨n - level, Nat.sub_le _ _, ?_⟩
  rw [Nat.add_comm, Nat.add_mul_div_right _ _ (Nat.two_pow_pos _), Nat.div_eq_of_lt hlt,
    Nat.zero_add]

/-- The allocated nodes are the nodes of the taken blocks. -/
theorem alloc_iff {m : Nat} (h : Rep tree t node) (hnode : 1 ≤ node) (hm : Below n node m) :
    tree m = .alloc ↔ ∃ start level, t.HasBlock start level ∧
      m = node * 2 ^ (n - level) + start / 2 ^ level := by
  induction t generalizing node m with
  | free =>
    simp only [BuddyTree.HasBlock, false_and, exists_false, iff_false]
    by_cases hne : m = node
    · simp [hne, h.1]
    · simp [h.2 m hm hne]
  | @taken n =>
    constructor
    · intro halloc
      by_cases hne : m = node
      · exact ⟨0, n, ⟨rfl, rfl⟩, by simp [hne]⟩
      · simp [h.2 m hm hne] at halloc
    · rintro ⟨start, level, ⟨rfl, rfl⟩, rfl⟩
      simp [h.1]
  | @split n l r ihl ihr =>
    obtain ⟨hroot, hl, hr⟩ := h
    obtain rfl | hm | hm := hm.cases
    · simp only [hroot, reduceCtorEq, false_iff, not_exists, not_and]
      -- the node of a block of a half is below that half
      rintro start level (hblock | ⟨hge, hblock⟩) heq
      · have hle := (below_blockNode hblock (m * 2)).le
        rw [← node_left hblock.level_le] at hle
        omega
      · have hle := (below_blockNode hblock (m * 2 + 1)).le
        rw [← node_right hblock.level_le, Nat.add_sub_cancel' hge] at hle
        omega
    · rw [ihl hl (by omega) hm]
      constructor
      · rintro ⟨start, level, hblock, rfl⟩
        exact ⟨start, level, Or.inl hblock, (node_left hblock.level_le _ _).symm⟩
      · rintro ⟨start, level, hblock | ⟨hge, hblock⟩, rfl⟩
        · exact ⟨start, level, hblock, node_left hblock.level_le _ _⟩
        · rw [← Nat.add_sub_cancel' hge, node_right hblock.level_le] at hm
          exact absurd (below_blockNode hblock _) (Below.left_right hnode hm)
    · rw [ihr hr (by omega) hm]
      constructor
      · rintro ⟨start, level, hblock, rfl⟩
        refine ⟨2 ^ n + start, level, Or.inr ⟨Nat.le_add_right _ _, ?_⟩,
          (node_right hblock.level_le _ _).symm⟩
        rwa [Nat.add_sub_cancel_left]
      · rintro ⟨start, level, hblock | ⟨hge, hblock⟩, rfl⟩
        · rw [node_left hblock.level_le] at hm
          exact absurd hm (Below.left_right hnode (below_blockNode hblock _))
        · refine ⟨start - 2 ^ n, level, hblock, ?_⟩
          rw [← node_right hblock.level_le, Nat.add_sub_cancel' hge]

theorem ancestor_top {x : Nat} (hx : x < 2 ^ n) : (node * 2 ^ n + x) / 2 ^ n = node := by
  rw [Nat.add_comm, Nat.add_mul_div_right _ _ (Nat.two_pow_pos n), Nat.div_eq_of_lt hx,
    Nat.zero_add]

/-- Below a block, every other ancestor of a page is unused. -/
theorem ancestor_unused {x k : Nat} (h : UnusedBelow tree n node) (hnode : 1 ≤ node)
    (hx : x < 2 ^ n) (hk : k < n) : tree ((node * 2 ^ n + x) / 2 ^ k) = .unused := by
  have hroot : (node * 2 ^ n + x) / 2 ^ k / 2 ^ (n - k) = node := by
    rw [Nat.div_div_eq_div_mul, ← pow_add, Nat.add_sub_cancel' hk.le]
    exact ancestor_top hx
  exact h _ ⟨n - k, by omega, hroot⟩ (lt_of_strictly_below hnode (by omega) hroot).ne'

/-- When a node is a block, it is the only ancestor of its pages that is. -/
theorem block_of_root {x : Nat} (hroot : IsBlock tree node) (hbelow : UnusedBelow tree n node)
    (hnode : 1 ≤ node) (hx : x < 2 ^ n) :
    ∃ k ≤ n, IsBlock tree ((node * 2 ^ n + x) / 2 ^ k) ∧
      ∀ k' ≤ n, IsBlock tree ((node * 2 ^ n + x) / 2 ^ k') → k' = k := by
  refine ⟨n, le_rfl, ?_, fun k' hk' hblock => ?_⟩
  · rw [ancestor_top hx]
    exact hroot
  · by_contra hne
    simp [IsBlock, ancestor_unused hbelow hnode hx (show k' < n by omega)] at hblock

/-- Every page has one ancestor that is a block. -/
theorem block_of_page {x : Nat} (h : Rep tree t node) (hnode : 1 ≤ node) (hx : x < 2 ^ n) :
    ∃ k ≤ n, IsBlock tree ((node * 2 ^ n + x) / 2 ^ k) ∧
      ∀ k' ≤ n, IsBlock tree ((node * 2 ^ n + x) / 2 ^ k') → k' = k := by
  induction t generalizing node x with
  | free => exact block_of_root (Or.inl h.1) h.2 hnode hx
  | taken => exact block_of_root (Or.inr h.1) h.2 hnode hx
  | @split n l r ihl ihr =>
    obtain ⟨hroot, hl, hr⟩ := h
    have hpow : 2 ^ (n + 1) = 2 ^ n * 2 := pow_succ 2 n
    have htop : ¬IsBlock tree ((node * 2 ^ (n + 1) + x) / 2 ^ (n + 1)) := by
      rw [ancestor_top hx]
      simp [IsBlock, hroot]
    -- the page is a page of one of the halves
    have hhalf : ∃ k ≤ n, IsBlock tree ((node * 2 ^ (n + 1) + x) / 2 ^ k) ∧
        ∀ k' ≤ n, IsBlock tree ((node * 2 ^ (n + 1) + x) / 2 ^ k') → k' = k := by
      by_cases hlt : x < 2 ^ n
      · have hpage : node * 2 ^ (n + 1) + x = node * 2 * 2 ^ n + x := by
          rw [hpow]
          ring
        rw [hpage]
        exact ihl hl (by omega) hlt
      · have hpage : node * 2 ^ (n + 1) + x = (node * 2 + 1) * 2 ^ n + (x - 2 ^ n) := by
          have hmul : node * 2 ^ (n + 1) = node * 2 * 2 ^ n := by
            rw [hpow]
            ring
          rw [hmul, Nat.add_mul]
          omega
        rw [hpage]
        exact ihr hr (by omega) (by omega)
    obtain ⟨k, hk, hblock, honly⟩ := hhalf
    refine ⟨k, by omega, hblock, fun k' hk' hblock' => ?_⟩
    obtain rfl | hne := eq_or_ne k' (n + 1)
    · exact absurd hblock' htop
    · exact honly k' (by omega) hblock'

end Rep

end Represents

end EnclaveOS

import Mathlib.Tactic.Ring

/-!
# Foundation - buddy trees

A block of `2 ^ n` units is free, taken as a whole, or split into two buddies of
`2 ^ (n - 1)` units.  Allocation takes the leftmost free block that is large
enough and halves it as far as needed; release frees a block and joins buddies
that are both free.
-/

namespace EnclaveOS

/-- The state of a block of `2 ^ n` units. -/
inductive BuddyTree : Nat → Type
  | free {n : Nat} : BuddyTree n
  | taken {n : Nat} : BuddyTree n
  | split {n : Nat} (l r : BuddyTree n) : BuddyTree (n + 1)

namespace BuddyTree

/-- The block of `2 ^ level` units from `start` on is taken as a whole. -/
def HasBlock : {n : Nat} → BuddyTree n → (start level : Nat) → Prop
  | _, free, _, _ => False
  | n, taken, start, level => start = 0 ∧ level = n
  | n + 1, split l r, start, level =>
    l.HasBlock start level ∨ 2 ^ n ≤ start ∧ r.HasBlock (start - 2 ^ n) level

/-- No two buddies are both free. -/
def Canonical : {n : Nat} → BuddyTree n → Prop
  | _, free => True
  | _, taken => True
  | _, split l r => ¬(l = free ∧ r = free) ∧ l.Canonical ∧ r.Canonical

/-- The leftmost block of `2 ^ target` units of a free block is taken. -/
def carve (target : Nat) : (n : Nat) → BuddyTree n
  | 0 => taken
  | n + 1 => if n + 1 ≤ target then taken else split (carve target n) free

/-- Take a block of `2 ^ target` units; the result is the tree and the start. -/
def allocate (target : Nat) : {n : Nat} → BuddyTree n → Option (BuddyTree n × Nat)
  | n, free => some (carve target n, 0)
  | _, taken => none
  | n + 1, split l r =>
    if n + 1 = target then none
    else
      match l.allocate target with
      | some (l', start) => some (split l' r, start)
      | none =>
        match r.allocate target with
        | some (r', start) => some (split l r', 2 ^ n + start)
        | none => none

/-- Two buddies, joined when both are free. -/
def join {n : Nat} : BuddyTree n → BuddyTree n → BuddyTree (n + 1)
  | free, free => free
  | l, r => split l r

/-- Free the block that starts at `start`. -/
def release : {n : Nat} → BuddyTree n → Nat → BuddyTree n
  | _, free, _ => free
  | _, taken, _ => free
  | n + 1, split l r, start =>
    if start < 2 ^ n then join (l.release start) r else join l (r.release (start - 2 ^ n))

variable {n : Nat} {t t' : BuddyTree n} {start level start' level' target : Nat}

namespace HasBlock

theorem level_le (h : t.HasBlock start level) : level ≤ n := by
  induction t generalizing start with
  | free => exact h.elim
  | taken => exact h.2.le
  | split l r ihl ihr =>
    obtain h | ⟨-, h⟩ := h
    · exact (ihl h).trans (Nat.le_succ _)
    · exact (ihr h).trans (Nat.le_succ _)

/-- A block starts at a multiple of its size and ends inside the tree. -/
theorem aligned (h : t.HasBlock start level) :
    2 ^ level ∣ start ∧ start + 2 ^ level ≤ 2 ^ n := by
  induction t generalizing start with
  | free => exact h.elim
  | taken =>
    obtain ⟨rfl, rfl⟩ := h
    exact ⟨dvd_zero _, (Nat.zero_add _).le⟩
  | @split n l r ihl ihr =>
    have hpow : 2 ^ (n + 1) = 2 ^ n + 2 ^ n := by ring
    obtain h | ⟨hge, h⟩ := h
    · obtain ⟨hdvd, hend⟩ := ihl h
      exact ⟨hdvd, by omega⟩
    · obtain ⟨hdvd, hend⟩ := ihr h
      refine ⟨?_, by omega⟩
      have hhalf : 2 ^ level ∣ 2 ^ n := pow_dvd_pow 2 h.level_le
      rw [← Nat.sub_add_cancel hge]
      exact Nat.dvd_add hdvd hhalf

theorem lt (h : t.HasBlock start level) : start < 2 ^ n := by
  have hpos : 0 < 2 ^ level := Nat.two_pow_pos level
  have hend := h.aligned.2
  omega

/-- Two taken blocks are the same, or one ends before the other starts. -/
theorem disjoint (h : t.HasBlock start level) (h' : t.HasBlock start' level') :
    (start = start' ∧ level = level') ∨ start + 2 ^ level ≤ start' ∨
      start' + 2 ^ level' ≤ start := by
  induction t generalizing start start' with
  | free => exact h.elim
  | taken => exact Or.inl ⟨h.1.trans h'.1.symm, h.2.trans h'.2.symm⟩
  | @split n l r ihl ihr =>
    obtain h | ⟨hge, h⟩ := h
    · obtain h' | ⟨hge', h'⟩ := h'
      · exact ihl h h'
      · exact Or.inr (Or.inl (h.aligned.2.trans hge'))
    · obtain h' | ⟨hge', h'⟩ := h'
      · exact Or.inr (Or.inr (h'.aligned.2.trans hge))
      · have hcase := ihr h h'
        omega

end HasBlock

/-- Without a taken block, a canonical tree is free. -/
theorem Canonical.eq_free (hc : t.Canonical) (h : ∀ start level, ¬t.HasBlock start level) :
    t = free := by
  induction t with
  | free => rfl
  | @taken n => exact absurd ⟨rfl, rfl⟩ (h 0 n)
  | @split n l r ihl ihr =>
    obtain ⟨hsome, hl, hr⟩ := hc
    refine absurd ⟨ihl hl fun s e hs => h s e (Or.inl hs), ihr hr fun s e hs => ?_⟩ hsome
    exact h (2 ^ n + s) e (Or.inr ⟨by omega, by rwa [Nat.add_sub_cancel_left]⟩)

/-- A canonical tree is determined by its taken blocks. -/
theorem Canonical.ext (hc : t.Canonical) (hc' : t'.Canonical)
    (h : ∀ start level, t.HasBlock start level ↔ t'.HasBlock start level) : t = t' := by
  induction t with
  | free => exact (hc'.eq_free fun s e hs => (h s e).mpr hs).symm
  | @taken n =>
    have hself := (h 0 n).mp ⟨rfl, rfl⟩
    cases t' with
    | free => exact hself.elim
    | taken => rfl
    | split l r =>
      -- a block of the whole size fits in no half
      obtain hself | ⟨-, hself⟩ := hself
      · exact absurd hself.level_le (by omega)
      · exact absurd hself.level_le (by omega)
  | @split n l r ihl ihr =>
    cases t' with
    | free => exact hc.eq_free fun s e hs => (h s e).mp hs
    | taken =>
      have hself := (h 0 (n + 1)).mpr ⟨rfl, rfl⟩
      obtain hself | ⟨-, hself⟩ := hself
      · exact absurd hself.level_le (by omega)
      · exact absurd hself.level_le (by omega)
    | split l' r' =>
      have hl : ∀ s e, l.HasBlock s e ↔ l'.HasBlock s e := by
        intro s e
        constructor
        · intro hs
          obtain hs' | ⟨hge, -⟩ := (h s e).mp (Or.inl hs)
          · exact hs'
          · exact absurd hs.lt (Nat.not_lt.mpr hge)
        · intro hs
          obtain hs' | ⟨hge, -⟩ := (h s e).mpr (Or.inl hs)
          · exact hs'
          · exact absurd hs.lt (Nat.not_lt.mpr hge)
      have hr : ∀ s e, r.HasBlock s e ↔ r'.HasBlock s e := by
        intro s e
        have hshift := h (2 ^ n + s) e
        have hsub : 2 ^ n + s - 2 ^ n = s := Nat.add_sub_cancel_left _ _
        constructor
        · intro hs
          obtain hs' | ⟨-, hs'⟩ := hshift.mp (Or.inr ⟨by omega, by rwa [hsub]⟩)
          · exact absurd hs'.lt (by omega)
          · rwa [hsub] at hs'
        · intro hs
          obtain hs' | ⟨-, hs'⟩ := hshift.mpr (Or.inr ⟨by omega, by rwa [hsub]⟩)
          · exact absurd hs'.lt (by omega)
          · rwa [hsub] at hs'
      rw [ihl hc.2.1 hc'.2.1 hl, ihr hc.2.2 hc'.2.2 hr]

theorem carve_ne_free (target n : Nat) : carve target n ≠ free := by
  cases n with
  | zero => simp [carve]
  | succ n =>
    unfold carve
    split_ifs <;> simp

theorem canonical_carve (target n : Nat) : (carve target n).Canonical := by
  induction n with
  | zero => trivial
  | succ n ih =>
    unfold carve
    split_ifs
    · trivial
    · exact ⟨fun h => carve_ne_free target n h.1, ih, trivial⟩

theorem hasBlock_carve (hle : target ≤ n) :
    (carve target n).HasBlock start level ↔ start = 0 ∧ level = target := by
  induction n with
  | zero =>
    obtain rfl : target = 0 := by omega
    exact Iff.rfl
  | succ n ih =>
    unfold carve
    by_cases htop : n + 1 ≤ target
    · obtain rfl : target = n + 1 := by omega
      rw [if_pos htop]
      exact Iff.rfl
    · rw [if_neg htop]
      simp only [HasBlock, and_false, or_false]
      exact ih (by omega)

theorem canonical_allocate (hc : t.Canonical) (h : t.allocate target = some (t', start)) :
    t'.Canonical ∧ t' ≠ free := by
  induction t generalizing start with
  | free =>
    cases h
    exact ⟨canonical_carve _ _, carve_ne_free _ _⟩
  | taken => cases h
  | split l r ihl ihr =>
    unfold allocate at h
    split_ifs at h
    cases hl : l.allocate target with
    | some res =>
      obtain ⟨l', s⟩ := res
      rw [hl] at h
      cases h
      obtain ⟨hl', hne⟩ := ihl hc.2.1 hl
      exact ⟨⟨fun hfree => hne hfree.1, hl', hc.2.2⟩, by simp⟩
    | none =>
      rw [hl] at h
      cases hr : r.allocate target with
      | some res =>
        obtain ⟨r', s⟩ := res
        rw [hr] at h
        cases h
        obtain ⟨hr', hne⟩ := ihr hc.2.2 hr
        exact ⟨⟨fun hfree => hne hfree.2, hc.2.1, hr'⟩, by simp⟩
      | none =>
        rw [hr] at h
        cases h

/-- Allocation adds one block, of the size asked for. -/
theorem hasBlock_allocate (hle : target ≤ n) (h : t.allocate target = some (t', start)) :
    (∀ s e, t'.HasBlock s e ↔ t.HasBlock s e ∨ s = start ∧ e = target) ∧
      ∀ e, ¬t.HasBlock start e := by
  induction t generalizing start with
  | free =>
    cases h
    exact ⟨fun s e => (hasBlock_carve hle).trans (by simp [HasBlock]), fun e he => he⟩
  | taken => cases h
  | @split n l r ihl ihr =>
    unfold allocate at h
    split_ifs at h with htop
    have hle' : target ≤ n := by omega
    cases hl : l.allocate target with
    | some res =>
      obtain ⟨l', s₀⟩ := res
      rw [hl] at h
      cases h
      obtain ⟨hblocks, hnew⟩ := ihl hle' hl
      have hlt : start < 2 ^ n := ((hblocks start target).mpr (Or.inr ⟨rfl, rfl⟩)).lt
      refine ⟨fun s e => ?_, fun e he => ?_⟩
      · simp only [HasBlock, hblocks]
        tauto
      · obtain he | ⟨hge, -⟩ := he
        · exact hnew e he
        · omega
    | none =>
      rw [hl] at h
      cases hr : r.allocate target with
      | some res =>
        obtain ⟨r', s₀⟩ := res
        rw [hr] at h
        cases h
        obtain ⟨hblocks, hnew⟩ := ihr hle' hr
        refine ⟨fun s e => ?_, fun e he => ?_⟩
        · simp only [HasBlock, hblocks]
          constructor
          · rintro (hs | ⟨hge, hs | ⟨hs, he⟩⟩)
            · exact Or.inl (Or.inl hs)
            · exact Or.inl (Or.inr ⟨hge, hs⟩)
            · exact Or.inr ⟨by omega, he⟩
          · rintro ((hs | ⟨hge, hs⟩) | ⟨rfl, he⟩)
            · exact Or.inl hs
            · exact Or.inr ⟨hge, Or.inl hs⟩
            · exact Or.inr ⟨Nat.le_add_right _ _, Or.inr ⟨Nat.add_sub_cancel_left _ _, he⟩⟩
        · obtain he | ⟨-, he⟩ := he
          · exact absurd he.lt (by omega)
          · rw [Nat.add_sub_cancel_left] at he
            exact hnew e he
      | none =>
        rw [hr] at h
        cases h

/-- An aligned place for `2 ^ target` units that no taken block meets. -/
structure Room (t : BuddyTree n) (target start : Nat) : Prop where
  aligned : 2 ^ target ∣ start
  inside : start + 2 ^ target ≤ 2 ^ n
  apart : ∀ s e, t.HasBlock s e → start + 2 ^ target ≤ s ∨ s + 2 ^ e ≤ start

/-- There is no room in a tree with a taken block for the tree as a whole. -/
theorem Room.not_whole {s e : Nat} (hblock : t.HasBlock s e) : ¬t.Room n start := by
  intro h
  have hend := hblock.aligned.2
  have hpos : 0 < 2 ^ e := Nat.two_pow_pos e
  have hapart := h.apart s e hblock
  have hinside := h.inside
  omega

/-- There is room in a tree where there is room in one of its halves. -/
theorem room_split {l r : BuddyTree n} (hle : target ≤ n) :
    (∃ start, (split l r).Room target start) ↔
      (∃ start, l.Room target start) ∨ ∃ start, r.Room target start := by
  have hpow : 2 ^ (n + 1) = 2 ^ n + 2 ^ n := by ring
  have hhalf : 2 ^ target ∣ 2 ^ n := pow_dvd_pow 2 hle
  have hpos : 0 < 2 ^ target := Nat.two_pow_pos target
  constructor
  · rintro ⟨start, haligned, hinside, hapart⟩
    by_cases hlt : start < 2 ^ n
    · refine Or.inl ⟨start, haligned, ?_, fun s e hs => hapart s e (Or.inl hs)⟩
      obtain ⟨q, rfl⟩ := haligned
      obtain ⟨half, hn⟩ := hhalf
      rw [hn] at hlt ⊢
      have hq : q < half := Nat.lt_of_mul_lt_mul_left hlt
      calc 2 ^ target * q + 2 ^ target = 2 ^ target * (q + 1) := by ring
        _ ≤ 2 ^ target * half := Nat.mul_le_mul_left _ hq
    · refine Or.inr ⟨start - 2 ^ n, Nat.dvd_sub haligned hhalf, by omega, fun s e hs => ?_⟩
      have hs' : (split l r).HasBlock (2 ^ n + s) e :=
        Or.inr ⟨Nat.le_add_right _ _, by rwa [Nat.add_sub_cancel_left]⟩
      have hapart' := hapart _ e hs'
      omega
  · rintro (⟨start, haligned, hinside, hapart⟩ | ⟨start, haligned, hinside, hapart⟩)
    · refine ⟨start, haligned, by omega, fun s e hs => ?_⟩
      obtain hs | ⟨hge, -⟩ := hs
      · exact hapart s e hs
      · exact Or.inl (hinside.trans hge)
    · refine ⟨2 ^ n + start, Nat.dvd_add hhalf haligned, by omega, fun s e hs => ?_⟩
      obtain hs | ⟨hge, hs⟩ := hs
      · have hend := hs.aligned.2
        omega
      · have hapart' := hapart _ e hs
        omega

theorem allocate_split {l r : BuddyTree n} (htop : ¬n + 1 = target) :
    (split l r).allocate target =
      match l.allocate target with
      | some (l', start) => some (split l' r, start)
      | none =>
        match r.allocate target with
        | some (r', start) => some (split l r', 2 ^ n + start)
        | none => none :=
  if_neg htop

/-- Allocation finds room wherever there is some. -/
theorem allocate_isSome (hc : t.Canonical) (hle : target ≤ n) :
    (t.allocate target).isSome ↔ ∃ start, t.Room target start := by
  induction t with
  | @free n =>
    have hpow : 2 ^ target ≤ 2 ^ n := Nat.pow_le_pow_right (by decide) hle
    simp only [allocate, Option.isSome_some, true_iff]
    exact ⟨0, dvd_zero _, by omega, fun s e hs => hs.elim⟩
  | @taken n =>
    simp only [allocate, Option.isSome_none, Bool.false_eq_true, false_iff]
    rintro ⟨start, -, hinside, hapart⟩
    have hpos : 0 < 2 ^ target := Nat.two_pow_pos target
    have hapart' := hapart 0 n ⟨rfl, rfl⟩
    omega
  | @split n l r ihl ihr =>
    by_cases htop : n + 1 = target
    · subst htop
      simp only [allocate, if_true, Option.isSome_none, Bool.false_eq_true, false_iff]
      rintro ⟨start, h⟩
      -- a half that is not free has a block, and the place is the whole tree
      apply hc.1
      refine ⟨hc.2.1.eq_free fun s e hs => ?_, hc.2.2.eq_free fun s e hs => ?_⟩
      · exact Room.not_whole (t := split l r) (Or.inl hs) h
      · have hs' : (split l r).HasBlock (2 ^ n + s) e :=
          Or.inr ⟨Nat.le_add_right _ _, by rwa [Nat.add_sub_cancel_left]⟩
        exact Room.not_whole hs' h
    · have hle' : target ≤ n := by omega
      rw [room_split hle', ← ihl hc.2.1 hle', ← ihr hc.2.2 hle']
      rw [allocate_split htop]
      cases l.allocate target with
      | some res => simp
      | none => cases r.allocate target <;> simp

theorem join_of_ne {l r : BuddyTree n} (h : ¬(l = free ∧ r = free)) : join l r = split l r := by
  cases l with
  | free =>
    cases r with
    | free => exact absurd ⟨rfl, rfl⟩ h
    | taken => rfl
    | split => rfl
  | taken => rfl
  | split => rfl

theorem canonical_join {l r : BuddyTree n} (hl : l.Canonical) (hr : r.Canonical) :
    (join l r).Canonical := by
  by_cases h : l = free ∧ r = free
  · rw [h.1, h.2]
    trivial
  · rw [join_of_ne h]
    exact ⟨h, hl, hr⟩

theorem hasBlock_join {l r : BuddyTree n} :
    (join l r).HasBlock start level ↔ (split l r).HasBlock start level := by
  by_cases h : l = free ∧ r = free
  · rw [h.1, h.2]
    simp [join, HasBlock]
  · rw [join_of_ne h]

theorem canonical_release (hc : t.Canonical) (start : Nat) : (t.release start).Canonical := by
  induction t generalizing start with
  | free => trivial
  | taken => trivial
  | split l r ihl ihr =>
    unfold release
    split_ifs
    · exact canonical_join (ihl hc.2.1 _) hc.2.2
    · exact canonical_join hc.2.1 (ihr hc.2.2 _)

/-- Release removes the block and nothing else. -/
theorem hasBlock_release (h : t.HasBlock start level) :
    ∀ s e, (t.release start).HasBlock s e ↔ t.HasBlock s e ∧ s ≠ start := by
  induction t generalizing start with
  | free => exact h.elim
  | taken =>
    obtain ⟨rfl, -⟩ := h
    intro s e
    simp only [release, HasBlock, false_iff, not_and, not_not]
    exact fun hs => hs.1
  | @split n l r ihl ihr =>
    intro s e
    unfold release
    obtain h | ⟨hge, h⟩ := h
    · rw [if_pos h.lt, hasBlock_join]
      simp only [HasBlock, ihl h]
      have hlt := h.lt
      constructor
      · rintro (⟨hs, hne⟩ | ⟨hge, hs⟩)
        · exact ⟨Or.inl hs, hne⟩
        · exact ⟨Or.inr ⟨hge, hs⟩, by omega⟩
      · rintro ⟨hs | hs, hne⟩
        · exact Or.inl ⟨hs, hne⟩
        · exact Or.inr hs
    · rw [if_neg (by omega), hasBlock_join]
      simp only [HasBlock, ihr h]
      constructor
      · rintro (hs | ⟨hge', hs, hne⟩)
        · exact ⟨Or.inl hs, by have := hs.lt; omega⟩
        · exact ⟨Or.inr ⟨hge', hs⟩, by omega⟩
      · rintro ⟨hs | ⟨hge', hs⟩, hne⟩
        · exact Or.inl hs
        · exact Or.inr ⟨hge', hs, by omega⟩

end BuddyTree
end EnclaveOS

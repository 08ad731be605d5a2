import Mathlib.Data.List.Basic
import Mathlib.Data.List.TakeWhile

/-!
# Foundation - paths and the walk along their components

A path is a list of characters that is split on runs of a separator, and is walked through a graph
whose edges have names.  A node may be a mount point, and is then left for the node mounted on it
before a name is looked up, and at the end; mounts can form cycles.  The characters and the nodes
are arbitrary.
-/

namespace EnclaveOS

variable {α : Type*} {n : Nat}

/-- A name in pieces of `n` characters. -/
def cutName (n : Nat) (x : List α) : List (List α) :=
  if _h : x.length = 0 ∨ n = 0 then []
  else x.take n :: cutName n (x.drop n)
termination_by x.length
decreasing_by
  rw [List.length_drop]
  omega

theorem cutName_short {x : List α} (hx : x ≠ []) (hn : x.length ≤ n) : cutName n x = [x] := by
  have hpos : 0 < x.length := List.length_pos_iff.mpr hx
  rw [cutName, dif_neg (by omega), List.take_of_length_le hn, List.drop_eq_nil_of_le hn, cutName]
  rfl

theorem cutName_first {x : List α} (hn : 0 < n) (hx : x ≠ []) :
    cutName n x = x.take n :: cutName n (x.drop n) := by
  have hpos : 0 < x.length := List.length_pos_iff.mpr hx
  rw [cutName, dif_neg (by omega)]

variable [DecidableEq α] {sep : α} {path q x : List α}

/-- The names between the separators, without the empty ones. -/
def components (sep : α) (path : List α) : List (List α) :=
  (path.splitOn sep).filter fun x => x ≠ []

/-- The names of a path, where a name of more than `n` characters is cut. -/
def pieces (n : Nat) (sep : α) (path : List α) : List (List α) :=
  (components sep path).flatMap (cutName n)

@[simp]
theorem components_nil : components sep [] = [] := rfl

@[simp]
theorem components_cons_sep : components sep (sep :: path) = components sep path := by
  simp [components, List.splitOn_cons_eq_if_modifyHead]

theorem components_append_sep (a b : List α) :
    components sep (a ++ sep :: b) = components sep a ++ components sep b := by
  unfold components
  rw [List.splitOn_append_cons_self, List.filter_append]

theorem pieces_append_sep (a b : List α) :
    pieces n sep (a ++ sep :: b) = pieces n sep a ++ pieces n sep b := by
  unfold pieces
  rw [components_append_sep, List.flatMap_append]

theorem components_name (hx : x ≠ []) (hsep : sep ∉ x) : components sep x = [x] := by
  rw [components, List.splitOn_eq_singleton hsep]
  simp [hx]

theorem components_dropWhile :
    components sep (path.dropWhile fun c => c = sep) = components sep path := by
  induction path with
  | nil => rfl
  | cons c cs ih =>
    by_cases hc : c = sep
    · rw [List.dropWhile_cons_of_pos (by simpa using hc), ih, hc, components_cons_sep]
    · rw [List.dropWhile_cons_of_neg (by simpa using hc)]

/-- The first name of a path that starts with it. -/
theorem components_append (hx : x ≠ []) (hsep : sep ∉ x) (hq : q = [] ∨ ∃ r, q = sep :: r) :
    components sep (x ++ q) = x :: components sep q := by
  rcases hq with rfl | ⟨r, rfl⟩
  · rw [List.append_nil, components, List.splitOn_eq_singleton hsep]
    simp [hx]
  · rw [components_cons_sep, components, List.splitOn_append_cons_self_of_not_mem hsep]
    simp [hx, components]

/-- The names hold all characters but the separators. -/
theorem components_flatten (sep : α) (path : List α) :
    (components sep path).flatten = path.filter fun c => c ≠ sep := by
  unfold components
  rw [List.flatten_filter_ne_nil]
  induction path with
  | nil => rfl
  | cons c cs ih =>
    rw [List.splitOn_cons_eq_if_modifyHead]
    by_cases hc : c = sep
    · simp [hc, ih]
    · have hne := List.splitOn_ne_nil sep cs
      cases hsplit : cs.splitOn sep with
      | nil => exact absurd hsplit hne
      | cons x xs =>
        rw [hsplit] at ih
        rw [if_neg (by simpa using hc), List.modifyHead_cons, List.flatten_cons, List.cons_append,
          ← List.flatten_cons, ih, List.filter_cons_of_pos (by simpa using hc)]

/-- What stands behind the first name of a path is empty or starts with a separator. -/
theorem dropWhile_sep (sep : α) (q : List α) :
    (q.dropWhile fun c => c ≠ sep) = [] ∨ ∃ r, (q.dropWhile fun c => c ≠ sep) = sep :: r := by
  induction q with
  | nil => exact Or.inl rfl
  | cons c cs ih =>
    by_cases hc : c = sep
    · exact Or.inr ⟨cs, by simp [hc]⟩
    · rw [List.dropWhile_cons_of_pos (by simpa using hc)]
      exact ih

/-- A scan that starts at a name takes its first characters, and goes on behind them. -/
theorem pieces_step (hn : 0 < n) {c : α} {cs : List α} (hc : c ≠ sep) :
    pieces n sep (c :: cs) = ((c :: cs).takeWhile fun c => c ≠ sep).take n ::
      pieces n sep ((c :: cs).drop (((c :: cs).takeWhile fun c => c ≠ sep).take n).length) := by
  have hsplit : (c :: cs) = ((c :: cs).takeWhile fun c => c ≠ sep) ++
      ((c :: cs).dropWhile fun c => c ≠ sep) := List.takeWhile_append_dropWhile.symm
  have hrest := dropWhile_sep sep (c :: cs)
  have hne : ((c :: cs).takeWhile fun c => c ≠ sep) ≠ [] := by simp [hc]
  have hsep : sep ∉ ((c :: cs).takeWhile fun c => c ≠ sep) := by
    intro hmem
    have hpass := List.mem_takeWhile_imp hmem
    simp at hpass
  generalize ((c :: cs).takeWhile fun c => c ≠ sep) = x at hsplit hne hsep ⊢
  generalize ((c :: cs).dropWhile fun c => c ≠ sep) = r at hsplit hrest
  rw [hsplit]
  by_cases hlong : n < x.length
  · have hdrop : (x ++ r).drop (x.take n).length = x.drop n ++ r := by
      rw [List.length_take, Nat.min_eq_left (Nat.le_of_lt hlong),
        List.drop_append_of_le_length (Nat.le_of_lt hlong)]
    have hne' : x.drop n ≠ [] := by
      intro hnil
      rw [List.drop_eq_nil_iff] at hnil
      omega
    rw [hdrop, pieces, pieces, components_append hne hsep hrest,
      components_append hne' (fun hmem => hsep (List.mem_of_mem_drop hmem)) hrest,
      List.flatMap_cons, List.flatMap_cons, cutName_first hn hne, List.cons_append]
  · have hle : x.length ≤ n := Nat.le_of_not_lt hlong
    rw [List.take_of_length_le hle, List.drop_left, pieces, pieces,
      components_append hne hsep hrest, List.flatMap_cons, cutName_short hne hle,
      List.singleton_append]

/-- No name is cut when all of them are short enough. -/
theorem pieces_eq_components (h : ∀ x ∈ components sep path, x.length ≤ n) :
    pieces n sep path = components sep path := by
  have hflat : ∀ l : List (List α), (∀ x ∈ l, x ≠ [] ∧ x.length ≤ n) →
      l.flatMap (cutName n) = l := by
    intro l hl
    induction l with
    | nil => rfl
    | cons x l ih =>
      obtain ⟨hx, hrest⟩ := List.forall_mem_cons.mp hl
      rw [List.flatMap_cons, cutName_short hx.1 hx.2, ih hrest, List.singleton_append]
  apply hflat
  intro x hx
  exact ⟨by simpa using (List.mem_filter.mp hx).2, h x hx⟩

/-- When the first `m` names are short enough, the first `m + 1` pieces are names, of
which only the last one can be cut. -/
theorem take_pieces {m : Nat} (hn : 0 < n)
    (h : ∀ x ∈ (components sep path).take m, x.length ≤ n) :
    (pieces n sep path).take (m + 1) = ((components sep path).take (m + 1)).map (List.take n) := by
  have hflat : ∀ l : List (List α), (∀ x ∈ l, x ≠ []) → ∀ m, (∀ x ∈ l.take m, x.length ≤ n) →
      (l.flatMap (cutName n)).take (m + 1) = (l.take (m + 1)).map (List.take n) := by
    intro l hl
    induction l with
    | nil => simp
    | cons x l ih =>
      intro m hm
      obtain ⟨hx, hrest⟩ := List.forall_mem_cons.mp hl
      cases m with
      | zero => simp [cutName_first hn hx]
      | succ m =>
        rw [List.take_succ_cons, List.forall_mem_cons] at hm
        rw [List.flatMap_cons, cutName_short hx hm.1, List.singleton_append, List.take_succ_cons,
          ih hrest m hm.2]
        simp [List.take_of_length_le hm.1]
  apply hflat
  · intro x hx
    simpa using (List.mem_filter.mp hx).2
  · exact h

/-- A graph with names on its edges, where some nodes are mount points. -/
structure PathGraph (N α : Type*) where
  isMount : N → Bool
  mountNode : N → Option N
  lookup : N → List α → Option N

namespace PathGraph

/-- From a node through `k` mounts to one that is no mount point. -/
inductive Chase {N α : Type*} (g : PathGraph N α) : N → Nat → N → Prop
  | here {a : N} (h : g.isMount a = false) : Chase g a 0 a
  | hop {a b e : N} {k : Nat} (h : g.isMount a = true) (hm : g.mountNode a = some b)
    (hb : Chase g b k e) : Chase g a (k + 1) e

/-- From a node along the names, through `k` mounts in all, to the node they lead to. -/
inductive Walk {N α : Type*} (g : PathGraph N α) : N → List (List α) → Nat → N → Prop
  | stop {a e : N} {k : Nat} (h : Chase g a k e) : Walk g a [] k e
  | enter {a b d e : N} {x : List α} {names : List (List α)} {k j : Nat} (hd : Chase g a k d)
    (hb : g.lookup d x = some b) (h : Walk g b names j e) : Walk g a (x :: names) (k + j) e

/-- Following mounts with a budget; what is left of it is returned too. -/
def chase {N α : Type*} (g : PathGraph N α) : Nat → N → Option (Nat × N)
  | 0, a => if g.isMount a then none else some (0, a)
  | budget + 1, a =>
    if g.isMount a then (g.mountNode a).bind (chase g budget) else some (budget + 1, a)

/-- Walking along the names with one budget for all mounts. -/
def walk {N α : Type*} (g : PathGraph N α) (budget : Nat) (a : N) : List (List α) → Option N
  | [] => (g.chase budget a).map Prod.snd
  | x :: names =>
    (g.chase budget a).bind fun r => (g.lookup r.2 x).bind fun b => walk g r.1 b names

variable {N α : Type*} {g : PathGraph N α} {a e : N} {budget : Nat}

theorem Chase.not_mount {k : Nat} (h : g.Chase a k e) : g.isMount e = false := by
  induction h with
  | here h => exact h
  | hop _ _ _ ih => exact ih

/-- A node that is no mount point is not left. -/
theorem Chase.eq_of_not_mount {k : Nat} (h : g.Chase a k e) (ha : g.isMount a = false) : e = a := by
  cases h with
  | here => rfl
  | hop hmount =>
    rw [hmount] at ha
    cases ha

/-- Mounts lead to one node. -/
theorem Chase.unique {k j : Nat} {d : N} (h : g.Chase a k e) (h' : g.Chase a j d) :
    k = j ∧ e = d := by
  induction h generalizing j with
  | here hnot =>
    cases h' with
    | here => exact ⟨rfl, rfl⟩
    | hop hmount =>
      rw [hnot] at hmount
      cases hmount
  | hop hmount hm _ ih =>
    cases h' with
    | here hnot =>
      rw [hmount] at hnot
      cases hnot
    | hop _ hm' hb =>
      obtain rfl := Option.some.inj (hm.symm.trans hm')
      obtain ⟨rfl, rfl⟩ := ih hb
      exact ⟨rfl, rfl⟩

theorem chase_eq_some {left : Nat} :
    g.chase budget a = some (left, e) ↔ left ≤ budget ∧ g.Chase a (budget - left) e := by
  induction budget generalizing a with
  | zero =>
    rw [chase]
    constructor
    · intro h
      split_ifs at h with hmount
      cases h
      exact ⟨le_refl 0, .here ((Bool.not_eq_true _).mp hmount)⟩
    · rintro ⟨hleft, h⟩
      obtain rfl : left = 0 := by omega
      cases h with
      | here hmount => rw [if_neg (by simp [hmount])]
  | succ budget ih =>
    rw [chase]
    by_cases hmount : g.isMount a = true
    · rw [if_pos hmount, Option.bind_eq_some_iff]
      constructor
      · rintro ⟨b, hb, h⟩
        obtain ⟨hleft, hchase⟩ := ih.mp h
        have hsub : budget + 1 - left = budget - left + 1 := by omega
        rw [hsub]
        exact ⟨by omega, .hop hmount hb hchase⟩
      · rintro ⟨hleft, h⟩
        generalize hk : budget + 1 - left = k at h
        cases h with
        | here hnot =>
          rw [hmount] at hnot
          cases hnot
        | @hop _ b _ k _ hb hchase =>
          have hsub : k = budget - left := by omega
          exact ⟨b, hb, ih.mpr ⟨by omega, hsub ▸ hchase⟩⟩
    · rw [if_neg hmount]
      have hnot := (Bool.not_eq_true _).mp hmount
      constructor
      · intro h
        cases h
        rw [Nat.sub_self]
        exact ⟨le_refl _, .here hnot⟩
      · rintro ⟨hleft, h⟩
        generalize hk : budget + 1 - left = k at h
        cases h with
        | here =>
          have hall : left = budget + 1 := by omega
          rw [hall]
        | hop hyes =>
          rw [hyes] at hnot
          cases hnot

/-- A walk with a budget finds the node that the names lead to within it. -/
theorem walk_eq_some {names : List (List α)} :
    g.walk budget a names = some e ↔ ∃ k ≤ budget, g.Walk a names k e := by
  induction names generalizing budget a with
  | nil =>
    rw [walk, Option.map_eq_some_iff]
    constructor
    · rintro ⟨⟨left, d⟩, h, rfl⟩
      obtain ⟨hleft, hchase⟩ := chase_eq_some.mp h
      exact ⟨budget - left, Nat.sub_le .., .stop hchase⟩
    · rintro ⟨k, hk, h⟩
      cases h with
      | stop hchase =>
        have hsub : budget - (budget - k) = k := by omega
        exact ⟨(budget - k, e), chase_eq_some.mpr ⟨Nat.sub_le .., hsub.symm ▸ hchase⟩, rfl⟩
  | cons x names ih =>
    rw [walk, Option.bind_eq_some_iff]
    constructor
    · rintro ⟨⟨left, d⟩, h, hrest⟩
      obtain ⟨b, hb, hwalk⟩ := Option.bind_eq_some_iff.mp hrest
      obtain ⟨hleft, hchase⟩ := chase_eq_some.mp h
      obtain ⟨j, hj, hwalk⟩ := ih.mp hwalk
      exact ⟨budget - left + j, by omega, .enter hchase hb hwalk⟩
    · rintro ⟨k, hk, h⟩
      cases h with
      | @enter _ b d _ _ _ i j hchase hb hwalk =>
        have hsub : budget - (budget - i) = i := by omega
        refine ⟨(budget - i, d), chase_eq_some.mpr ⟨Nat.sub_le .., hsub.symm ▸ hchase⟩, ?_⟩
        exact Option.bind_eq_some_iff.mpr ⟨b, hb, ih.mpr ⟨j, by omega, hwalk⟩⟩

end PathGraph

end EnclaveOS

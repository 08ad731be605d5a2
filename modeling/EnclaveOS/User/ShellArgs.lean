import EnclaveOS.Foundation.ByteMemory
import EnclaveOS.Foundation.PathWalk
import EnclaveOS.User.Strtol

/-!
# ShellArgs - splitting a command line

`parse_args` of `shell_user.c`.  The pointer into the line is what is left of it, with
the terminator; nothing may be read behind that.
-/

namespace EnclaveOS

open ByteMemory

def maxArgs : Nat := 16
def maxArgLen : Nat := 64

/-- The character between the arguments. -/
def blank : BitVec 8 := ascii ' '

/-- The variables of `parse_args`: `ptr`, `argc` and `args`.  The pointers at
which arguments began are kept for the proofs. -/
structure ArgState where
  ptr : List (BitVec 8)
  argc : Nat
  args : Nat → Bytes
  begins : List (List (BitVec 8))

/-- The inner loop: the pointer and `args` behind it, and `i`. -/
def takeArg (argc : Nat) : List (BitVec 8) → Nat → (Nat → Bytes) →
    Option (List (BitVec 8) × Nat × (Nat → Bytes))
  | [], _, _ => none
  | c :: rest, i, args =>
    if c ≠ 0#8 ∧ c ≠ blank ∧ i < maxArgLen - 1 then
      takeArg argc rest (i + 1)
        (Function.update args argc (Function.update (args argc) i c))
    else some (c :: rest, i, args)

/-- The body of the outer loop, or nothing left to do. -/
def parseRound (s : ArgState) : Option (ArgState × Bool) := do
  let ptr ← skipSpaces s.ptr
  if (← ptr.head?) = 0#8 then some ({ s with ptr := ptr }, false)
  else
    let (rest, i, args) ← takeArg s.argc ptr 0 s.args
    some ({
      ptr := rest
      argc := s.argc + 1
      args := Function.update args s.argc (Function.update (args s.argc) i 0#8)
      begins := s.begins ++ [ptr] }, true)

/-- The outer loop, with `n` arguments left to fill. -/
def parseLoop : Nat → ArgState → Option ArgState
  | 0, s => s.ptr.head?.map fun _ => s
  | n + 1, s => do
    if (← s.ptr.head?) = 0#8 then some s
    else
      let (s, more) ← parseRound s
      if more then parseLoop n s else some s

/-- The loop before: an empty text in each row. -/
def emptyRows (args : Nat → Bytes) : Nat → Bytes :=
  fun i => if i < maxArgs then Function.update (args i) 0 0#8 else args i

/-- `parse_args` of a buffer from its first character on. -/
def parseArgs (buffer : List (BitVec 8)) (args : Nat → Bytes) : Option ArgState :=
  parseLoop maxArgs {
    ptr := buffer
    argc := 0
    args := emptyRows args
    begins := [] }

section Words

variable {s s' : ArgState} {q w line : List (BitVec 8)} {args : Nat → Bytes} {argc i n : Nat}

/-- The inner loop takes the characters of the run up to its limit. -/
theorem takeArg_eq (hnul : 0#8 ∉ q) :
    takeArg argc (q ++ [0#8]) i args =
      some (q.drop ((q.takeWhile fun c => c ≠ blank).take (maxArgLen - 1 - i)).length ++ [0#8],
        i + ((q.takeWhile fun c => c ≠ blank).take (maxArgLen - 1 - i)).length,
        Function.update args argc (storeBytes (args argc) i
          ((q.takeWhile fun c => c ≠ blank).take (maxArgLen - 1 - i)))) := by
  induction q generalizing i args with
  | nil => simp [takeArg, storeBytes]
  | cons c q ih =>
    rw [List.mem_cons, not_or] at hnul
    obtain ⟨hc, hrest⟩ := hnul
    rw [List.cons_append, takeArg]
    by_cases htake : c ≠ blank ∧ i < maxArgLen - 1
    · have hroom : maxArgLen - 1 - i = (maxArgLen - 1 - (i + 1)) + 1 := by omega
      rw [if_pos ⟨Ne.symm hc, htake⟩, ih hrest, List.takeWhile_cons_of_pos (by simpa using htake.1),
        hroom, List.take_succ_cons]
      simp only [List.length_cons, List.drop_succ_cons, Function.update_self, Function.update_idem,
        storeBytes, Option.some.injEq, Prod.mk.injEq, true_and]
      exact ⟨by omega, trivial⟩
    · have hnone : ((c :: q).takeWhile fun c => c ≠ blank).take (maxArgLen - 1 - i) = [] := by
        by_cases hblank : c = blank
        · simp [hblank]
        · have hfull : maxArgLen - 1 - i = 0 := by
            have hlimit : ¬ i < maxArgLen - 1 := fun hi => htake ⟨hblank, hi⟩
            omega
          rw [hfull, List.take_zero]
      rw [if_neg (fun h => htake h.2), hnone]
      simp [storeBytes]

theorem skipBlanks (q : List (BitVec 8)) :
    skipSpaces (q ++ [0#8]) = some ((q.dropWhile fun c => c = blank) ++ [0#8]) := by
  have hspace : isSpace = fun c => decide (c = blank) := by
    funext c
    rfl
  rw [skipSpaces_terminated, hspace]

/-- The first argument of what is left. -/
def nextWord (q : List (BitVec 8)) : List (BitVec 8) :=
  (q.takeWhile fun c => c ≠ blank).take (maxArgLen - 1)

/-- The variables after the argument at `q`. -/
def ArgState.filled (s : ArgState) (q : List (BitVec 8)) : ArgState where
  ptr := q.drop (nextWord q).length ++ [0#8]
  argc := s.argc + 1
  args := Function.update s.args s.argc (storeBytes (s.args s.argc) 0 (nextWord q ++ [0#8]))
  begins := s.begins ++ [q ++ [0#8]]

/-- Only blanks are left. -/
theorem parseRound_end (hptr : s.ptr = q ++ [0#8]) (hend : (q.dropWhile fun c => c = blank) = []) :
    parseRound s = some ({ s with ptr := [0#8] }, false) := by
  unfold parseRound
  rw [hptr, skipBlanks, hend]
  rfl

/-- One argument is taken. -/
theorem parseRound_word (hptr : s.ptr = q ++ [0#8]) (hnul : 0#8 ∉ q)
    (hword : (q.dropWhile fun c => c = blank) ≠ []) :
    parseRound s = some (s.filled (q.dropWhile fun c => c = blank), true) := by
  have hnul' : 0#8 ∉ (q.dropWhile fun c => c = blank) := fun hmem =>
    hnul ((List.dropWhile_sublist _).mem hmem)
  unfold parseRound
  rw [hptr, skipBlanks]
  generalize (q.dropWhile fun c => c = blank) = q' at hword hnul' ⊢
  have hhead : (q' ++ [0#8]).head? = some (q'.headD 0#8) := head?_terminated q'
  have hne : q'.headD 0#8 ≠ 0#8 := by
    cases q' with
    | nil => exact absurd rfl hword
    | cons c cs =>
      intro heq
      change c = 0#8 at heq
      exact hnul' (heq ▸ List.mem_cons_self)
  simp only [Option.bind_eq_bind, Option.bind_some, hhead, if_neg hne, takeArg_eq hnul']
  rw [Function.update_self, Function.update_idem]
  unfold ArgState.filled nextWord
  rw [storeBytes_append, Nat.sub_zero, storeBytes, storeBytes]

/-- Rows `k` and following hold the words. -/
def fillRows (args : Nat → Bytes) (k : Nat) : List (List (BitVec 8)) → Nat → Bytes
  | [] => args
  | w :: words =>
    fillRows (Function.update args k (storeBytes (args k) 0 (w ++ [0#8]))) (k + 1) words

theorem fillRows_outside {words : List (List (BitVec 8))} {k i : Nat}
    (h : i < k ∨ k + words.length ≤ i) : fillRows args k words i = args i := by
  induction words generalizing args k with
  | nil => rfl
  | cons w words ih =>
    rw [List.length_cons] at h
    rw [fillRows, ih (by omega)]
    exact Function.update_of_ne (by omega) _ _

theorem fillRows_get {words : List (List (BitVec 8))} {k j : Nat} {w : List (BitVec 8)}
    (hw : words[j]? = some w) :
    fillRows args k words (k + j) = storeBytes (args (k + j)) 0 (w ++ [0#8]) := by
  induction words generalizing args k j with
  | nil => simp at hw
  | cons x words ih =>
    rw [fillRows]
    cases j with
    | zero =>
      rw [List.getElem?_cons_zero, Option.some.injEq] at hw
      rw [fillRows_outside (Or.inl (by omega)), Nat.add_zero, Function.update_self, hw]
    | succ j =>
      rw [List.getElem?_cons_succ] at hw
      have hindex : k + (j + 1) = k + 1 + j := by omega
      rw [hindex, ih hw, Function.update_of_ne (by omega)]

/-- One turn of the loop: the end of the line, or one argument. -/
theorem parseLoop_turn (hptr : s.ptr = q ++ [0#8]) (hnul : 0#8 ∉ q) :
    (q.dropWhile (fun c => c = blank) = [] ∧
      ∃ ptr, parseLoop (n + 1) s = some { s with ptr := ptr }) ∨
    ∃ c cs, q.dropWhile (fun c => c = blank) = c :: cs ∧ c ≠ blank ∧
      parseLoop (n + 1) s = parseLoop n (s.filled (c :: cs)) := by
  have hhead : s.ptr.head? = some (q.headD 0#8) := by
    rw [hptr]
    exact head?_terminated q
  rw [parseLoop, hhead]
  cases q with
  | nil => exact Or.inl ⟨rfl, s.ptr, rfl⟩
  | cons c cs =>
    have hne : (c :: cs).headD 0#8 ≠ 0#8 := by
      intro heq
      change c = 0#8 at heq
      exact hnul (heq ▸ List.mem_cons_self)
    simp only [Option.bind_eq_bind, Option.bind_some, if_neg hne]
    by_cases hend : (c :: cs).dropWhile (fun c => c = blank) = []
    · rw [parseRound_end hptr hend]
      exact Or.inl ⟨hend, [0#8], rfl⟩
    · rw [parseRound_word hptr hnul hend]
      obtain ⟨d, ds, hsplit⟩ := List.exists_cons_of_ne_nil hend
      have hblank : ¬ decide (d = blank) = true := by
        have hnot := List.head_dropWhile_not (fun c => decide (c = blank)) hend
        simp only [hsplit, List.head_cons] at hnot
        rw [hnot]
        exact Bool.false_ne_true
      refine Or.inr ⟨d, ds, hsplit, fun heq => hblank (by simpa using heq), ?_⟩
      rw [hsplit]
      rfl

theorem filled_ptr (s : ArgState) (q : List (BitVec 8)) :
    (s.filled q).ptr = q.drop (nextWord q).length ++ [0#8] := rfl

/-- The loop fills a row for each piece of what is left, as long as there are rows. -/
theorem parseLoop_pieces (hptr : s.ptr = q ++ [0#8]) (hnul : 0#8 ∉ q) :
    ∃ s', parseLoop n s = some s' ∧
      s'.argc = s.argc + ((pieces (maxArgLen - 1) blank q).take n).length ∧
      s'.args = fillRows s.args s.argc ((pieces (maxArgLen - 1) blank q).take n) ∧
      ∀ ptr ∈ s.begins, ptr ∈ s'.begins := by
  induction n generalizing s q with
  | zero => exact ⟨s, by simp [parseLoop, hptr], rfl, rfl, fun _ hmem => hmem⟩
  | succ n ih =>
    have hpieces : pieces (maxArgLen - 1) blank (q.dropWhile fun c => c = blank) =
        pieces (maxArgLen - 1) blank q := by
      unfold pieces
      rw [components_dropWhile]
    have hnul' : 0#8 ∉ (q.dropWhile fun c => c = blank) := fun hmem =>
      hnul ((List.dropWhile_sublist _).mem hmem)
    rw [← hpieces]
    rcases @parseLoop_turn s q n hptr hnul with ⟨hend, ptr, hloop⟩ | ⟨c, cs, hsplit, hc, hloop⟩
    · rw [hend, hloop]
      exact ⟨_, rfl, rfl, rfl, fun _ hmem => hmem⟩
    · rw [hsplit] at hnul' ⊢
      have hrest : 0#8 ∉ (c :: cs).drop (nextWord (c :: cs)).length := fun hmem =>
        hnul' (List.mem_of_mem_drop hmem)
      obtain ⟨s', hs', hargc, hargs, hbegins⟩ := ih (filled_ptr s (c :: cs)) hrest
      have hstep : pieces (maxArgLen - 1) blank (c :: cs) = nextWord (c :: cs) ::
          pieces (maxArgLen - 1) blank ((c :: cs).drop (nextWord (c :: cs)).length) :=
        pieces_step (by decide) hc
      refine ⟨s', hloop.trans hs', ?_, ?_, fun ptr hptr => hbegins ptr ?_⟩
      · rw [hargc, hstep, List.take_succ_cons, List.length_cons]
        change s.argc + 1 + _ = _
        omega
      · rw [hargs, hstep, List.take_succ_cons, fillRows]
        rfl
      · exact List.mem_append_left _ hptr

/-- A run of the line begins at `ptr`. -/
def BeginsRun (line ptr : List (BitVec 8)) : Prop :=
  ∃ before, line ++ [0#8] = before ++ ptr ∧ ∀ c ∈ before.getLast?, c = blank

/-- What is left of the line does not begin inside a run. -/
def AtBreak (line q : List (BitVec 8)) : Prop :=
  ∃ before, line = before ++ q ∧ (q.head? = some blank ∨ q = [] ∨ ∀ c ∈ before.getLast?, c = blank)

/-- Behind the blanks a run begins. -/
theorem AtBreak.beginsRun {c : BitVec 8} {cs : List (BitVec 8)} (h : AtBreak line q)
    (hsplit : q.dropWhile (fun c => c = blank) = c :: cs) (hc : c ≠ blank) :
    BeginsRun line (c :: cs ++ [0#8]) := by
  obtain ⟨before, hline, hwhere⟩ := h
  have hq : q = q.takeWhile (fun c => c = blank) ++ c :: cs := by
    rw [← hsplit, List.takeWhile_append_dropWhile]
  refine ⟨before ++ q.takeWhile (fun c => c = blank), ?_, ?_⟩
  · rw [hline]
    nth_rewrite 1 [hq]
    simp
  · intro d hd
    cases hblanks : q.takeWhile (fun c => c = blank) with
    | nil =>
      rw [hblanks, List.nil_append] at hq
      rw [hblanks, List.append_nil] at hd
      rcases hwhere with hhead | hempty | hlast
      · rw [hq, List.head?_cons, Option.some.injEq] at hhead
        exact absurd hhead hc
      · rw [hq] at hempty
        cases hempty
      · exact hlast d hd
    | cons e es =>
      rw [List.getLast?_append_of_ne_nil _ (by rw [hblanks]; exact List.cons_ne_nil e es)] at hd
      have hpass := List.mem_takeWhile_imp (List.mem_of_getLast? hd)
      simpa using hpass

/-- Inside a run no run begins. -/
theorem not_beginsRun {before : List (BitVec 8)} {c : BitVec 8} (hline : line = before ++ q)
    (hlast : before.getLast? = some c) (hc : c ≠ blank) : ¬ BeginsRun line (q ++ [0#8]) := by
  rintro ⟨before', heq, hblank⟩
  rw [hline, List.append_assoc] at heq
  have hsame : before = before' := List.append_cancel_right heq
  exact hc (hblank c (hsame ▸ hlast))

/-- The first run of what is left, and the line behind it. -/
theorem first_run {c : BitVec 8} (cs : List (BitVec 8)) (hc : c ≠ blank) :
    ∃ run rest, c :: cs = run ++ rest ∧ run ≠ [] ∧ (∀ d ∈ run, d ≠ blank) ∧
      (rest = [] ∨ ∃ r, rest = blank :: r) ∧ nextWord (c :: cs) = run.take (maxArgLen - 1) ∧
      components blank (c :: cs) = run :: components blank rest := by
  have hsplit : c :: cs = (c :: cs).takeWhile (fun c => c ≠ blank) ++
      (c :: cs).dropWhile fun c => c ≠ blank := List.takeWhile_append_dropWhile.symm
  have hbehind := dropWhile_sep blank (c :: cs)
  have hne : (c :: cs).takeWhile (fun c => c ≠ blank) ≠ [] := by simp [hc]
  have hsep : ∀ d ∈ (c :: cs).takeWhile (fun c => c ≠ blank), d ≠ blank := by
    intro d hd
    have hpass := List.mem_takeWhile_imp hd
    simpa using hpass
  refine ⟨_, _, hsplit, hne, hsep, hbehind, rfl, ?_⟩
  nth_rewrite 1 [hsplit]
  exact components_append hne (fun hmem => hsep _ hmem rfl) hbehind

/-- Inside a run that was cut no run begins. -/
theorem not_beginsRun_cut {before run rest : List (BitVec 8)} (hline : line = before ++ (run ++ rest))
    (hrun : ∀ d ∈ run, d ≠ blank) (hlong : maxArgLen - 1 < run.length) :
    ¬ BeginsRun line (run.drop (maxArgLen - 1) ++ rest ++ [0#8]) := by
  have hne : run.take (maxArgLen - 1) ≠ [] := by
    rw [← List.length_pos_iff, List.length_take]
    exact Nat.lt_min.mpr ⟨by decide, by omega⟩
  have hsplit : line =
      before ++ run.take (maxArgLen - 1) ++ (run.drop (maxArgLen - 1) ++ rest) := by
    rw [hline, List.append_assoc before, ← List.append_assoc (run.take _), List.take_append_drop]
  apply not_beginsRun hsplit
    ((List.getLast?_append_of_ne_nil _ hne).trans (List.getLast?_eq_some_getLast hne))
  exact hrun _ (List.mem_of_mem_take (List.getLast_mem hne))

/-- After a cut the next argument begins inside the run. -/
theorem parseLoop_cut {before run rest : List (BitVec 8)} (hline : line = before ++ (run ++ rest))
    (hrun : ∀ d ∈ run, d ≠ blank) (hlong : maxArgLen - 1 < run.length)
    (hptr : s.ptr = run.drop (maxArgLen - 1) ++ rest ++ [0#8])
    (hnul : 0#8 ∉ run.drop (maxArgLen - 1) ++ rest) (hloop : parseLoop (n + 1) s = some s') :
    ¬ ∀ ptr ∈ s'.begins, BeginsRun line ptr := by
  intro hbegins
  have hmore : run.drop (maxArgLen - 1) ≠ [] := by
    rw [← List.length_pos_iff, List.length_drop]
    omega
  obtain ⟨d, ds, hdrop⟩ := List.exists_cons_of_ne_nil hmore
  have hd : d ≠ blank := hrun d (List.mem_of_mem_drop (hdrop ▸ List.mem_cons_self))
  have hnone : (run.drop (maxArgLen - 1) ++ rest).dropWhile (fun c => c = blank) =
      run.drop (maxArgLen - 1) ++ rest := by
    rw [hdrop, List.cons_append, List.dropWhile_cons_of_neg (by simpa using hd)]
  rcases @parseLoop_turn s _ n hptr hnul with ⟨hend, -⟩ | ⟨c, cs, hword, -, hturn⟩
  · rw [hnone, hdrop, List.cons_append] at hend
    cases hend
  · rw [hnone] at hword
    rw [← hword] at hturn
    obtain ⟨s'', hs'', -, -, hkeep⟩ := @parseLoop_pieces
      (s.filled (run.drop (maxArgLen - 1) ++ rest)) _ n (filled_ptr _ _)
      (fun hmem => hnul (List.mem_of_mem_drop hmem))
    rw [hturn, hs'', Option.some.injEq] at hloop
    apply not_beginsRun_cut hline hrun hlong
    apply hbegins
    rw [← hloop]
    exact hkeep _ (List.mem_append_right _ List.mem_cons_self)

theorem parseLoop_zero (hloop : parseLoop 0 s = some s') : s' = s := by
  rw [parseLoop, Option.map_eq_some_iff] at hloop
  obtain ⟨c, -, hs⟩ := hloop
  exact hs.symm

/-- The arguments begin where runs begin, unless a run was cut and not the last argument. -/
theorem parseLoop_begins (hptr : s.ptr = q ++ [0#8]) (hnul : 0#8 ∉ q) (hbreak : AtBreak line q)
    (hloop : parseLoop n s = some s') :
    (∀ ptr ∈ s'.begins, BeginsRun line ptr) ↔ (∀ ptr ∈ s.begins, BeginsRun line ptr) ∧
      ∀ run ∈ (components blank q).take (n - 1), run.length ≤ maxArgLen - 1 := by
  induction n generalizing s q with
  | zero => simp [parseLoop_zero hloop]
  | succ n ih =>
    rw [← components_dropWhile, Nat.add_sub_cancel]
    rcases @parseLoop_turn s q n hptr hnul with ⟨hend, ptr, hturn⟩ | ⟨c, cs, hword, hc, hturn⟩
    · rw [hturn, Option.some.injEq] at hloop
      simp [← hloop, hend]
    · rw [hturn] at hloop
      have hfirst : BeginsRun line (c :: cs ++ [0#8]) := hbreak.beginsRun hword hc
      have hfilled : (∀ ptr ∈ (s.filled (c :: cs)).begins, BeginsRun line ptr) ↔
          ∀ ptr ∈ s.begins, BeginsRun line ptr := by
        simpa [ArgState.filled, or_imp, forall_and] using fun _ => hfirst
      obtain ⟨before, hline, -⟩ := hbreak
      obtain ⟨run, rest, hsplit, hne, hrun, hbehind, hnext, hcomponents⟩ := first_run cs hc
      have hline' : line = before ++ q.takeWhile (fun c => c = blank) ++ (run ++ rest) := by
        rw [← hsplit, ← hword, List.append_assoc, List.takeWhile_append_dropWhile]
        exact hline
      have hnul' : 0#8 ∉ run ++ rest := fun hmem =>
        hnul ((List.dropWhile_sublist _).mem (hword ▸ hsplit ▸ hmem))
      rw [hword, hcomponents]
      cases n with
      | zero => simp [parseLoop_zero hloop, hfilled]
      | succ m =>
        by_cases hlong : maxArgLen - 1 < run.length
        · -- the rest of the run is the next argument
          have hlen : (nextWord (c :: cs)).length = maxArgLen - 1 := by
            rw [hnext, List.length_take, Nat.min_eq_left (Nat.le_of_lt hlong)]
          have hdrop : (c :: cs).drop (nextWord (c :: cs)).length =
              run.drop (maxArgLen - 1) ++ rest := by
            rw [hlen, hsplit, List.drop_append_of_le_length (Nat.le_of_lt hlong)]
          have hptr' : (s.filled (c :: cs)).ptr = run.drop (maxArgLen - 1) ++ rest ++ [0#8] := by
            rw [filled_ptr, hdrop]
          have hcut := parseLoop_cut hline' hrun hlong hptr'
            (fun hmem => hnul' (List.mem_of_mem_drop (List.drop_append_of_le_length
              (Nat.le_of_lt hlong) ▸ hmem))) hloop
          constructor
          · exact fun hbegins => absurd hbegins hcut
          · intro hshort
            have hle := hshort.2 run (by simp)
            omega
        · have hall : nextWord (c :: cs) = run := by
            rw [hnext, List.take_of_length_le (Nat.le_of_not_lt hlong)]
          have hptr' : (s.filled (c :: cs)).ptr = rest ++ [0#8] := by
            rw [filled_ptr, hall, hsplit, List.drop_left]
          have hrest : AtBreak line rest := by
            refine ⟨before ++ q.takeWhile (fun c => c = blank) ++ run, ?_, ?_⟩
            · rw [hline']
              simp
            · rcases hbehind with hnil | ⟨r, hr⟩
              · exact Or.inr (Or.inl hnil)
              · exact Or.inl (by rw [hr, List.head?_cons])
          rw [ih hptr' (fun hmem => hnul' (List.mem_append_right _ hmem)) hrest hloop, hfilled]
          simp only [Nat.add_sub_cancel, List.take_succ_cons, List.mem_cons, forall_eq_or_imp]
          simp [Nat.le_of_not_lt hlong]

/-- The arguments of a line are its runs, of which those behind the last argument are left out,
and long ones are cut. -/
structure SplitsRuns (line : List (BitVec 8)) (args : Nat → Bytes) (s : ArgState) : Prop where
  count : s.argc = min maxArgs (components blank line).length
  word : ∀ (i : Nat) (run : List (BitVec 8)), i < s.argc → (components blank line)[i]? = some run →
    s.args i = storeBytes (args i) 0 (run.take (maxArgLen - 1) ++ [0#8])
  begins : ∀ ptr ∈ s.begins, BeginsRun line ptr
  rest : ∀ i, s.argc ≤ i → s.args i = emptyRows args i

/-- A text that is stored over an empty one. -/
theorem storeBytes_emptyRows (args : Nat → Bytes) (i : Nat) (w : List (BitVec 8)) :
    storeBytes (emptyRows args i) 0 (w ++ [0#8]) = storeBytes (args i) 0 (w ++ [0#8]) := by
  unfold emptyRows
  split_ifs
  · cases w <;> simp [storeBytes]
  · rfl

/-- A line is split into its runs just when those that are not the last argument are short
enough. -/
theorem parse_args_iff (line : List (BitVec 8)) (args : Nat → Bytes) (hnul : 0#8 ∉ line) :
    ∃ s, parseArgs (line ++ [0#8]) args = some s ∧
      (SplitsRuns line args s ↔
        ∀ run ∈ (components blank line).take (maxArgs - 1), run.length ≤ maxArgLen - 1) := by
  obtain ⟨s, hs, hargc, hargs, -⟩ := @parseLoop_pieces
    { ptr := line ++ [0#8], argc := 0, args := emptyRows args, begins := [] } line maxArgs rfl hnul
  have hbreak : AtBreak line line := ⟨[], rfl, Or.inr (Or.inr (by simp))⟩
  have hiff := parseLoop_begins rfl hnul hbreak hs
  refine ⟨s, hs, fun hsplits => (hiff.mp hsplits.begins).2, fun hshort => ?_⟩
  have hwords : (pieces (maxArgLen - 1) blank line).take maxArgs =
      ((components blank line).take maxArgs).map (List.take (maxArgLen - 1)) :=
    take_pieces (by decide) hshort
  rw [hwords] at hargc hargs
  have hcount : s.argc = min maxArgs (components blank line).length := by
    simpa using hargc
  constructor
  case count => exact hcount
  case word =>
    intro i run hi hrun
    have hget : (((components blank line).take maxArgs).map (List.take (maxArgLen - 1)))[i]? =
        some (run.take (maxArgLen - 1)) := by
      rw [List.getElem?_map, List.getElem?_take_of_lt (by omega), hrun, Option.map_some]
    have hrow := @fillRows_get (emptyRows args) _ 0 i _ hget
    rw [Nat.zero_add] at hrow
    rw [hargs, hrow, storeBytes_emptyRows]
  case begins => exact hiff.mpr ⟨by simp, hshort⟩
  case rest =>
    intro i hi
    rw [hargs]
    apply fillRows_outside
    right
    simpa [hcount] using hi

/-- A line of two arguments. -/
theorem parse_args_small :
    ∃ s, parseArgs ([108#8, 115#8, 32#8, 47#8] ++ [0#8]) (fun _ _ => 0#8) = some s ∧
      (SplitsRuns [108#8, 115#8, 32#8, 47#8] (fun _ _ => 0#8) s ↔
        ∀ run ∈ (components blank [108#8, 115#8, 32#8, 47#8]).take (maxArgs - 1),
          run.length ≤ maxArgLen - 1) :=
  parse_args_iff _ _ (by decide)

/-- A word of 64 characters becomes two arguments. -/
theorem parse_args_splits_word :
    ¬ ∀ (line : List (BitVec 8)) (args : Nat → Bytes), 0#8 ∉ line →
      ∃ s, parseArgs (line ++ [0#8]) args = some s ∧ SplitsRuns line args s := by
  intro h
  obtain ⟨s, hs, hsplits⟩ := h (List.replicate 64 97#8) (fun _ _ => 0#8) (by decide)
  have hargc : (parseArgs (List.replicate 64 97#8 ++ [0#8]) fun _ _ => 0#8).map ArgState.argc =
      some 2 := by decide +kernel
  have hruns : (components blank (List.replicate 64 97#8)).length = 1 := by
    rw [components_name (by decide) (by decide), List.length_singleton]
  rw [hs, Option.map_some, hsplits.count, hruns] at hargc
  cases hargc

end Words

end EnclaveOS

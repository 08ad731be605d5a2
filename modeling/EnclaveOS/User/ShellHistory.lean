import EnclaveOS.Foundation.Recency
import EnclaveOS.User.LineKeys

/-!
# ShellHistory - the history of the shell

`history_add` and the loop of `main` of `shell_user.c`, which reads a line, keeps it
and executes it.  What `execute_command` leaves in the line buffer is left open; it changes
nothing else that the loop reads.
-/

namespace EnclaveOS

open ByteMemory LineEditor Recency

/-- The loop that moves the first `n` entries down. -/
def shiftLines (lines : List (List (BitVec 8))) : Nat → List (List (BitVec 8))
  | 0 => lines
  | n + 1 => (shiftLines lines n).set n ((shiftLines lines n).getD (n + 1) [])

/-- `history_add`. -/
def historyAdd (h : ShellHistory) (line : List (BitVec 8)) : ShellHistory :=
  if line.length = 0 then h
  else if 0 < h.lines.length ∧ h.lines.getD (h.lines.length - 1) [] = line then h
  else
    let lines :=
      if h.lines.length < historySize then h.lines ++ [line]
      else (shiftLines h.lines (historySize - 1)).set (historySize - 1) line
    { h with lines := lines, view := lines.length, scratchLen := 0 }

/-- The shell in a call of `readline`, or after `exit`. -/
inductive Shell
  | running (r : Readline)
  | exited

/-- A call `read(STDIN_FILENO, &c, 1)`, with its byte if there is one, and what
`execute_command` leaves in the buffer if the byte makes the shell execute a command; a command
may also be the end of the shell. -/
structure ShellRead where
  byte : Option (BitVec 8)
  left : Option Bytes

/-- The loop of `main`, from one byte to the next. -/
def stepShell : Shell → ShellRead → Option Shell
  | .exited, _ => some .exited
  | .running r, i =>
    match i.byte with
    | none => some (.running r)
    | some c => do
      match ← readByte cmdBufferSize r c with
      | .reading r => some (.running r)
      | .returned result r =>
        if result = -1 then some .exited
        else
          let line ← lineString cmdBufferSize r.buffer
          if line.length = 0 then some (.running (.start r.history r.buffer))
          else
            match i.left with
            | none => some .exited
            | some left => some (.running (.start (historyAdd r.history line) left))

def runShell (s : Shell) : List ShellRead → Option Shell
  | [] => some s
  | i :: reads => (stepShell s i).bind fun s => runShell s reads

/-- The statics when the shell starts. -/
def ShellHistory.initial : ShellHistory := ⟨[], 0, [], 0⟩

/-- The first call of `readline`. -/
def Shell.start (buffer : Bytes) : Shell := .running (.start .initial buffer)

/-- The byte does not submit an empty line, or the last line again, out of the history. -/
def Shell.Resets : Shell → BitVec 8 → Prop
  | .exited, _ => True
  | .running r, c =>
    r.decoder.key c = .enter →
      r.history.view = r.history.lines.length ∨
        r.text ≠ [] ∧ r.history.lines.getLast? ≠ some r.text

/-- So do all bytes of a run. -/
def ResetsAll : Shell → List ShellRead → Prop
  | _, [] => True
  | s, i :: reads => (∀ c ∈ i.byte, s.Resets c) ∧ ∀ s' ∈ stepShell s i, ResetsAll s' reads

instance (s : Shell) (c : BitVec 8) : Decidable (s.Resets c) :=
  match s with
  | .exited => isTrue trivial
  | .running _ => inferInstanceAs (Decidable (_ → _ ∨ _ ∧ _))

instance decidableResetsAll : (s : Shell) → (reads : List ShellRead) →
    Decidable (ResetsAll s reads)
  | _, [] => isTrue trivial
  | s, i :: reads =>
    have := fun s' => decidableResetsAll s' reads
    inferInstanceAs
      (Decidable ((∀ c ∈ i.byte, s.Resets c) ∧ ∀ s' ∈ stepShell s i, ResetsAll s' reads))

/-- A call of the shell's prompt: the line, all lines that were submitted, newest first, how far Up
has gone back, and the line that was typed before. -/
structure Prompt where
  decoder : Decoder
  line : Line (BitVec 8)
  submitted : List (List (BitVec 8))
  depth : Nat
  typed : List (BitVec 8)

namespace Prompt

/-- A call starts. -/
def start (submitted : List (List (BitVec 8))) : Prompt :=
  ⟨⟨.normal, []⟩, .empty, submitted, 0, []⟩

/-- The lines that can be recalled. -/
def recent (p : Prompt) : List (List (BitVec 8)) := Recency.recent historySize p.submitted

/-- The line before, as long as there is one. -/
def up (p : Prompt) : Prompt :=
  if p.depth < p.recent.length then
    { p with
      line := .atEnd (p.recent.getD p.depth [])
      depth := p.depth + 1
      typed := if p.depth = 0 then p.line.text else p.typed }
  else p

/-- The line behind, and the typed line at the end. -/
def down (p : Prompt) : Prompt :=
  if 0 < p.depth then
    { p with
      line := .atEnd (if p.depth = 1 then p.typed else p.recent.getD (p.depth - 2) [])
      depth := p.depth - 1 }
  else p

def edit (p : Prompt) (line : Line (BitVec 8)) : Prompt := { p with line := line }

/-- A byte; nothing if it ends the shell. -/
def read (p : Prompt) (i : ShellRead) (c : BitVec 8) : Option Prompt :=
  match p.decoder.key c with
  | .enter =>
    if p.line.text = [] then some (start p.submitted)
    else i.left.map fun _ => start (p.line.text :: p.submitted)
  | .interrupt => some (start p.submitted)
  | .deleteOrLeave =>
    if p.line.text = [] then none
    else some { p.edit p.line.delete with decoder := p.decoder.next c }
  | .up => some { p.up with decoder := p.decoder.next c }
  | .down => some { p.down with decoder := p.decoder.next c }
  | key => some { p.edit (pressLine cmdBufferSize p.line key) with decoder := p.decoder.next c }

def run (p : Prompt) : List ShellRead → Option Prompt
  | [] => some p
  | i :: reads =>
    match i.byte with
    | none => run p reads
    | some c => (p.read i c).bind fun p => run p reads

end Prompt

section Browsing

variable (p : Prompt)

/-- Several times Up. -/
theorem Prompt.ups {k : Nat} (hpos : 0 < p.recent.length) (hk : 0 < k) (h0 : p.depth = 0) :
    (Prompt.up^[k] p).recent = p.recent ∧
      (Prompt.up^[k] p).depth = min k p.recent.length ∧
      (Prompt.up^[k] p).typed = p.line.text ∧
      (Prompt.up^[k] p).line = .atEnd (p.recent.getD (min k p.recent.length - 1) []) := by
  induction k with
  | zero => omega
  | succ k ih =>
    rw [Function.iterate_succ_apply']
    by_cases hfirst : k = 0
    · subst hfirst
      rw [Function.iterate_zero_apply, Prompt.up, if_pos (by omega), if_pos h0, h0]
      refine ⟨rfl, ?_, rfl, ?_⟩
      · change 0 + 1 = _
        omega
      · rw [Nat.min_eq_left (by omega)]
    · obtain ⟨hrecent, hdepth, htyped, hline⟩ := ih (by omega)
      generalize Prompt.up^[k] p = q at hrecent hdepth htyped hline
      unfold Prompt.up
      rw [hrecent, hdepth]
      split_ifs with hmore hzero
      · omega
      · rw [Nat.min_eq_left (by omega), Nat.min_eq_left (by omega)]
        exact ⟨hrecent, rfl, htyped, rfl⟩
      · rw [hdepth, hline, Nat.min_eq_right (by omega), Nat.min_eq_right (by omega)]
        exact ⟨hrecent, rfl, htyped, rfl⟩

/-- Several times Down, up to the typed line. -/
theorem Prompt.downs {j : Nat} (hle : j ≤ p.depth) :
    (Prompt.down^[j] p).recent = p.recent ∧
      (Prompt.down^[j] p).depth = p.depth - j ∧
      (Prompt.down^[j] p).typed = p.typed ∧
      (0 < j → (Prompt.down^[j] p).line =
        .atEnd (if j = p.depth then p.typed else p.recent.getD (p.depth - j - 1) [])) := by
  induction j with
  | zero => exact ⟨rfl, rfl, rfl, fun h => absurd h (lt_irrefl 0)⟩
  | succ j ih =>
    obtain ⟨hrecent, hdepth, htyped, -⟩ := ih (by omega)
    rw [Function.iterate_succ_apply']
    generalize Prompt.down^[j] p = q at hrecent hdepth htyped
    unfold Prompt.down
    rw [hrecent, hdepth, htyped, if_pos (by omega)]
    refine ⟨hrecent, ?_, rfl, fun _ => ?_⟩
    · change p.depth - j - 1 = _
      omega
    · change Line.atEnd _ = _
      congr 1
      by_cases hlast : j + 1 = p.depth
      · rw [if_pos (by omega), if_pos hlast]
      · rw [if_neg (by omega), if_neg hlast]
        congr 1

/-- From the typed line Up goes through the recent lines and stops at the oldest one, Down goes back
through the same lines, and the typed line comes behind them. -/
structure Prompt.Browses : Prop where
  up : ∀ k, 0 < k →
    (Prompt.up^[k] p).line = .atEnd (p.recent.getD (min k p.recent.length - 1) [])
  down : ∀ k j, 0 < j → j < min k p.recent.length →
    (Prompt.down^[j] (Prompt.up^[k] p)).line =
      .atEnd (p.recent.getD (min k p.recent.length - j - 1) [])
  typed : ∀ k, 0 < k →
    (Prompt.down^[min k p.recent.length] (Prompt.up^[k] p)).line = .atEnd p.line.text

theorem Prompt.browses (h0 : p.depth = 0) (hne : p.recent ≠ []) : p.Browses := by
  have hpos := List.length_pos_of_ne_nil hne
  constructor
  · intro k hk
    exact (p.ups hpos hk h0).2.2.2
  · intro k j hj hlt
    obtain ⟨hrecent, hdepth, -⟩ := p.ups hpos (by omega : 0 < k) h0
    rw [(Prompt.downs _ (by omega)).2.2.2 hj, hrecent, hdepth, if_neg (by omega)]
  · intro k hk
    obtain ⟨-, hdepth, htyped, -⟩ := p.ups hpos hk h0
    rw [(Prompt.downs _ hdepth.ge).2.2.2 (by omega), if_pos hdepth.symm, htyped]

end Browsing

section Keeping

variable {lines : List (List (BitVec 8))}

theorem length_shiftLines (n : Nat) : (shiftLines lines n).length = lines.length := by
  induction n with
  | zero => rfl
  | succ n ih => rw [shiftLines, List.length_set, ih]

theorem shiftLines_getElem? {n : Nat} (hn : n < lines.length) (k : Nat) :
    (shiftLines lines n)[k]? = if k < n then lines[k + 1]? else lines[k]? := by
  induction n generalizing k with
  | zero => rfl
  | succ n ih =>
    have hn' : n < lines.length := by omega
    rw [shiftLines, List.getElem?_set, length_shiftLines, List.getD_eq_getElem?_getD, ih hn',
      ih hn', if_neg (show ¬n + 1 < n by omega), List.getElem?_eq_getElem hn, if_pos hn']
    by_cases hkn : n = k
    · subst hkn
      rw [if_pos rfl, if_pos (Nat.lt_succ_self n), List.getElem?_eq_getElem hn]
      rfl
    · rw [if_neg hkn]
      exact if_congr (by omega) rfl rfl

/-- The oldest line goes if there are 32. -/
theorem shiftLines_set (hlength : lines.length = historySize) (line : List (BitVec 8)) :
    (shiftLines lines (historySize - 1)).set (historySize - 1) line = lines.tail ++ [line] := by
  have hsize : historySize = 32 := rfl
  apply List.ext_getElem?
  intro k
  rw [List.getElem?_set, shiftLines_getElem? (by omega), length_shiftLines, List.getElem?_append,
    List.length_tail, List.getElem?_tail]
  by_cases hlast : historySize - 1 = k
  · rw [if_pos hlast, if_pos (by omega), if_neg (by omega)]
    simp [← hlast, hlength]
  · rw [if_neg hlast]
    by_cases hlt : k < historySize - 1
    · rw [if_pos hlt, if_pos (by omega)]
    · rw [if_neg hlt, if_neg (by omega), List.getElem?_eq_none (by omega),
        List.getElem?_eq_none (by simp; omega)]

theorem reverse_getD {l : List (List (BitVec 8))} {i : Nat} (d : Nat) (h : i + d + 1 = l.length) :
    l.reverse.getD i [] = l.getD d [] := by
  rw [List.getD_eq_getElem?_getD, List.getD_eq_getElem?_getD, List.getElem?_reverse' h]

theorem last_reverse {l : List (List (BitVec 8))} {line : List (BitVec 8)} :
    (0 < l.reverse.length ∧ l.reverse.getD (l.reverse.length - 1) [] = line) ↔
      l.head? = some line := by
  cases l with
  | nil => simp
  | cons a l =>
    rw [reverse_getD 0 (by simp)]
    simp

/-- A line that is not empty is kept, unless it equals the last one. -/
theorem historyAdd_recent {h : ShellHistory} {submitted : List (List (BitVec 8))}
    {line : List (BitVec 8)} (hne : line ≠ [])
    (hlines : h.lines = (recent historySize submitted).reverse) :
    (historyAdd h line).lines = (recent historySize (line :: submitted)).reverse ∧
      if submitted.head? = some line then historyAdd h line = h
      else (historyAdd h line).view = (historyAdd h line).lines.length := by
  have hlast : (0 < h.lines.length ∧ h.lines.getD (h.lines.length - 1) [] = line) ↔
      submitted.head? = some line := by
    rw [hlines, last_reverse, head?_recent (by decide)]
  have hempty : ¬line.length = 0 := fun hzero => hne (List.length_eq_zero_iff.mp hzero)
  by_cases hsame : submitted.head? = some line
  · rw [if_pos hsame, historyAdd, if_neg hempty, if_pos (hlast.mpr hsame), recent_cons_same hsame]
    exact ⟨hlines, rfl⟩
  · rw [if_neg hsame, historyAdd, if_neg hempty, if_neg (mt hlast.mp hsame), recent_cons_new hsame]
    refine ⟨?_, rfl⟩
    have hle : (recent historySize submitted).length ≤ historySize := length_recent_le
    have hlength : h.lines.length = (recent historySize submitted).length := by
      rw [hlines, List.length_reverse]
    by_cases hroom : h.lines.length < historySize
    · simp only [hroom, if_true]
      rw [List.take_of_length_le (by simp; omega), List.reverse_cons, hlines]
    · simp only [hroom, if_false]
      have hfull : (recent historySize submitted).length = historySize := by omega
      rw [shiftLines_set (by omega), hlines, List.tail_reverse, List.dropLast_eq_take, hfull,
        List.take_cons (by decide), List.reverse_cons]

end Keeping

section Steps

variable {r : Readline} {e : Editor} {p : Prompt} {c : BitVec 8}

/-- The entries are the recent lines, and the view is as far from their end as Up has gone back. -/
structure Recalls (e : Editor) (p : Prompt) : Prop where
  line : e.line = p.line
  entries : e.entries = p.recent.reverse
  view : e.view + p.depth = e.entries.length
  saved : 0 < p.depth → e.saved = p.typed

/-- A running shell is at its prompt. -/
inductive AtPrompt : Shell → Option Prompt → Prop
  | running {r : Readline} {e : Editor} {p : Prompt} (hshows : Shows cmdBufferSize r e)
    (hrecalls : Recalls e p) (hdecoder : r.decoder = p.decoder) : AtPrompt (.running r) (some p)
  | exited : AtPrompt .exited none

theorem Recalls.edit (h : Recalls e p) {line line' : Line (BitVec 8)} (heq : line = line')
    (decoder : Decoder) : Recalls (e.edit line) { p.edit line' with decoder := decoder } :=
  ⟨heq, h.entries, h.view, h.saved⟩

theorem Recalls.up (h : Recalls e p) (decoder : Decoder) :
    Recalls e.up { p.up with decoder := decoder } := by
  have hview := h.view
  have hlength : e.entries.length = p.recent.length := by rw [h.entries, List.length_reverse]
  unfold Editor.up Prompt.up
  by_cases hmore : p.depth < p.recent.length
  · rw [if_pos (by omega), if_pos hmore]
    refine ⟨?_, h.entries, ?_, fun _ => ?_⟩
    · change Line.atEnd _ = Line.atEnd _
      rw [h.entries, reverse_getD p.depth (by omega)]
    · change e.view - 1 + (p.depth + 1) = e.entries.length
      omega
    · change (if _ then _ else _) = if _ then _ else _
      rw [h.line]
      by_cases hzero : p.depth = 0
      · rw [if_pos (by omega), if_pos hzero]
      · rw [if_neg (by omega), if_neg hzero, h.saved (by omega)]
  · rw [if_neg (by omega), if_neg hmore]
    exact ⟨h.line, h.entries, h.view, h.saved⟩

theorem Recalls.down (h : Recalls e p) (decoder : Decoder) :
    Recalls e.down { p.down with decoder := decoder } := by
  have hview := h.view
  have hlength : e.entries.length = p.recent.length := by rw [h.entries, List.length_reverse]
  unfold Editor.down Prompt.down
  by_cases hback : 0 < p.depth
  · rw [if_pos (by omega), if_pos hback]
    refine ⟨?_, h.entries, ?_, fun _ => h.saved hback⟩
    · change Line.atEnd _ = Line.atEnd _
      congr 1
      by_cases hlast : p.depth = 1
      · rw [if_pos (by omega), if_pos hlast, h.saved hback]
      · rw [if_neg (by omega), if_neg hlast, h.entries, reverse_getD (p.depth - 2) (by omega)]
    · change e.view + 1 + (p.depth - 1) = e.entries.length
      omega
  · rw [if_neg (by omega), if_neg hback]
    exact ⟨h.line, h.entries, h.view, h.saved⟩

/-- A call starts. -/
theorem AtPrompt.start {history : ShellHistory} {submitted : List (List (BitVec 8))}
    (hok : HistoryOk cmdBufferSize history)
    (hlines : history.lines = (recent historySize submitted).reverse)
    (hview : history.view = history.lines.length) (buffer : Bytes) :
    AtPrompt (.running (.start history buffer)) (some (.start submitted)) :=
  .running (Shows.start hok buffer) ⟨rfl, hlines, hview, fun h => absurd h (lt_irrefl 0)⟩ rfl

/-- A byte that does not end the call. -/
theorem AtPrompt.editing {i : ShellRead} {result : ReadResult} {e' : Editor} {p' : Prompt}
    (hbyte : i.byte = some c) (hresult : readByte cmdBufferSize r c = some result)
    (hagrees : Agrees cmdBufferSize p'.decoder result (.editing e')) (hrecalls : Recalls e' p') :
    ∃ s, stepShell (.running r) i = some s ∧ AtPrompt s (some p') := by
  cases hagrees with
  | editing hshows hdecoder =>
    refine ⟨_, ?_, .running hshows hrecalls hdecoder⟩
    simp only [stepShell, hbyte, hresult]
    rfl

/-- What `main` does with the line of a call that returns 0. -/
def submitLine (i : ShellRead) (history : ShellHistory) (line : List (BitVec 8)) (buffer : Bytes) :
    Shell :=
  if line = [] then .running (.start history buffer)
  else
    match i.left with
    | none => .exited
    | some left => .running (.start (historyAdd history line) left)

theorem stepShell_returned {i : ShellRead} {r' : Readline} (hbyte : i.byte = some c)
    (hresult : readByte cmdBufferSize r c = some (.returned 0 r'))
    (hshows : Shows cmdBufferSize r' e) :
    stepShell (.running r) i = some (submitLine i r'.history e.line.text r'.buffer) := by
  have hline : lineString cmdBufferSize r'.buffer = some e.line.text :=
    lineString_eq hshows.stored (hshows.fits (by decide))
  simp only [stepShell, hbyte, hresult, Option.bind_eq_bind, Option.bind_some, hline,
    List.length_eq_zero_iff, submitLine]
  rw [if_neg (by decide)]
  split_ifs
  · rfl
  · cases i.left <;> rfl

/-- A line is submitted. -/
theorem AtPrompt.submit (h : Shows cmdBufferSize r e) (hrecalls : Recalls e p) (i : ShellRead)
    (hresets : e.view = e.entries.length ∨
      e.line.text ≠ [] ∧ e.entries.getLast? ≠ some e.line.text) :
    AtPrompt (submitLine i r.history e.line.text r.buffer)
      (if p.line.text = [] then some (.start p.submitted)
        else i.left.map fun _ => .start (p.line.text :: p.submitted)) := by
  have hlines : r.history.lines = (recent historySize p.submitted).reverse :=
    h.entries.trans hrecalls.entries
  rw [hrecalls.line, hrecalls.entries, List.getLast?_reverse, Prompt.recent,
    head?_recent (by decide)] at hresets
  rw [hrecalls.line, submitLine]
  by_cases hempty : p.line.text = []
  · rw [if_pos hempty, if_pos hempty]
    have hview := hresets.resolve_right fun hnew => hnew.1 hempty
    exact AtPrompt.start h.history hlines (by rw [h.view, hview, hlines]) _
  · rw [if_neg hempty, if_neg hempty]
    cases i.left with
    | none => exact .exited
    | some left =>
      have hfits : Fits cmdBufferSize p.line.text := hrecalls.line ▸ h.fits (by decide)
      obtain ⟨hkept, hview⟩ := historyAdd_recent hempty hlines
      have hend : (historyAdd r.history p.line.text).view =
          (historyAdd r.history p.line.text).lines.length := by
        by_cases hsame : p.submitted.head? = some p.line.text
        · rw [if_pos hsame] at hview
          rw [hview, h.view, hresets.resolve_right fun hnew => hnew.2 hsame, hlines]
        · rwa [if_neg hsame] at hview
      refine AtPrompt.start ⟨?_, hend.le, fun hlt => absurd hlt (by omega)⟩ hkept hend left
      intro text htext
      rw [hkept, List.mem_reverse] at htext
      cases mem_recent_cons htext with
      | inl hnew => exact hnew ▸ hfits
      | inr hold =>
        apply h.history.fits
        rw [hlines]
        exact List.mem_reverse.mpr hold

/-- One byte of the shell, and of the prompt that it is for. -/
theorem stepShell_read (h : Shows cmdBufferSize r e) (hrecalls : Recalls e p)
    (hdecoder : r.decoder = p.decoder) {i : ShellRead} (hbyte : i.byte = some c)
    (hresets : (Shell.running r).Resets c) :
    ∃ s, stepShell (.running r) i = some s ∧ AtPrompt s (p.read i c) := by
  obtain ⟨result, hresult, hagrees⟩ :=
    readByte_press h (by decide) c (h.saveFits (by decide) le_rfl _)
  have hline : e.line = p.line := hrecalls.line
  rw [Shell.Resets] at hresets
  rw [hdecoder] at hagrees hresets
  unfold Prompt.read
  cases hkey : p.decoder.key c with
  | enter =>
    rw [hkey] at hagrees
    cases hagrees with
    | ended _ hshows =>
      refine ⟨_, stepShell_returned hbyte hresult hshows, ?_⟩
      apply AtPrompt.submit hshows hrecalls
      rw [← h.view, ← h.entries, ← h.text]
      exact hresets hkey
  | interrupt =>
    rw [hkey] at hagrees
    cases hagrees with
    | ended _ hshows =>
      refine ⟨_, stepShell_returned hbyte hresult hshows, ?_⟩
      change AtPrompt (.running (.start _ _)) (some _)
      exact AtPrompt.start hshows.history (hshows.entries.trans hrecalls.entries)
        (hshows.view.trans (congrArg List.length hshows.entries).symm) _
  | deleteOrLeave =>
    rw [hkey, Editor.press, hline] at hagrees
    dsimp only
    by_cases hempty : p.line.text = []
    · rw [if_pos hempty] at hagrees ⊢
      cases hagrees with
      | ended _ hshows =>
        refine ⟨.exited, ?_, .exited⟩
        simp only [stepShell, hbyte, hresult]
        rfl
    · rw [if_neg hempty] at hagrees ⊢
      exact AtPrompt.editing hbyte hresult hagrees (hrecalls.edit rfl _)
  | up =>
    rw [hkey] at hagrees
    exact AtPrompt.editing hbyte hresult hagrees (hrecalls.up _)
  | down =>
    rw [hkey] at hagrees
    exact AtPrompt.editing hbyte hresult hagrees (hrecalls.down _)
  | _ =>
    rw [hkey] at hagrees
    exact AtPrompt.editing hbyte hresult hagrees (hrecalls.edit (congrArg (pressLine _ · _) hline) _)

end Steps

theorem runShell_exited (reads : List ShellRead) : runShell .exited reads = some .exited := by
  induction reads with
  | nil => rfl
  | cons i reads ih => exact ih

theorem AtPrompt.run {s : Shell} {p : Option Prompt} (h : AtPrompt s p) (reads : List ShellRead)
    (hresets : ResetsAll s reads) :
    ∃ s', runShell s reads = some s' ∧ AtPrompt s' (p.bind (·.run reads)) := by
  induction reads generalizing s p with
  | nil =>
    refine ⟨s, rfl, ?_⟩
    cases p <;> exact h
  | cons i reads ih =>
    cases h with
    | exited => exact ⟨.exited, runShell_exited _, .exited⟩
    | @running r e p hshows hrecalls hdecoder =>
      rw [Option.bind_some, Prompt.run, runShell]
      cases hbyte : i.byte with
      | none =>
        have hstep : stepShell (.running r) i = some (.running r) := by
          simp only [stepShell, hbyte]
        rw [hstep]
        exact ih (.running hshows hrecalls hdecoder) (hresets.2 _ hstep)
      | some c =>
        obtain ⟨s, hstep, hat⟩ :=
          stepShell_read hshows hrecalls hdecoder hbyte (hresets.1 c hbyte)
        rw [hstep]
        exact ih hat (hresets.2 s hstep)

/-- In every run in which no line is submitted out of the history unless it is new, the shell shows
the line of its prompt and recalls the lines that were submitted. -/
theorem shell_history (buffer : Bytes) (reads : List ShellRead)
    (hresets : ResetsAll (.start buffer) reads) :
    ∃ s, runShell (.start buffer) reads = some s ∧ AtPrompt s ((Prompt.start []).run reads) ∧
      ∀ p, (Prompt.start []).run reads = some p → p.depth = 0 → p.recent ≠ [] → p.Browses := by
  have hstart : AtPrompt (.start buffer) (some (.start [])) := by
    refine AtPrompt.start ⟨?_, le_rfl, fun hlt => absurd hlt (lt_irrefl 0)⟩ ?_ rfl buffer
    · intro text htext
      cases htext
    · rw [recent_nil]
      rfl
  obtain ⟨s, hrun, hat⟩ := hstart.run reads hresets
  exact ⟨s, hrun, hat, fun p _ => p.browses⟩

/-- Bytes that are typed, with a buffer that is empty after every command. -/
def typeBytes (bytes : List (BitVec 8)) : List ShellRead :=
  bytes.map fun c => ⟨some c, some fun _ => 0⟩

theorem shell_history_two :
    ∃ s, runShell (.start fun _ => 0xFF)
        (typeBytes [ascii 'a', 10, ascii 'b', 10, 0x1B, ascii '[', ascii 'A']) = some s ∧
      AtPrompt s ((Prompt.start []).run
        (typeBytes [ascii 'a', 10, ascii 'b', 10, 0x1B, ascii '[', ascii 'A'])) ∧
      ∀ p, (Prompt.start []).run
          (typeBytes [ascii 'a', 10, ascii 'b', 10, 0x1B, ascii '[', ascii 'A']) = some p →
        p.depth = 0 → p.recent ≠ [] → p.Browses :=
  shell_history _ _ (by decide +kernel)

def Shell.text : Shell → List (BitVec 8)
  | .running r => r.text
  | .exited => []

/-- The last command is recalled and submitted again; the next Up shows the one before. -/
theorem recall_after_repeat :
    (runShell (.start fun _ => 0xFF) (typeBytes [ascii 'a', 10, ascii 'b', 10,
        0x1B, ascii '[', ascii 'A', 10, 0x1B, ascii '[', ascii 'A'])).map Shell.text =
      some [ascii 'a'] ∧
    ((Prompt.start []).run (typeBytes [ascii 'a', 10, ascii 'b', 10,
        0x1B, ascii '[', ascii 'A', 10, 0x1B, ascii '[', ascii 'A'])).map (·.line.text) =
      some [ascii 'b'] := by
  constructor <;> decide +kernel

end EnclaveOS

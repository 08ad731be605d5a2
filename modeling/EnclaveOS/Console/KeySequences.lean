import EnclaveOS.Console.KeyboardRuns

/-!
# KeySequences - the escape sequences of the arrow keys

`kbd_push_ansi_seq` pushes the characters of a sequence one by one, and each push looks for room
of its own.  Near a full ring a sequence is cut, and the parser of `readline` waits for its rest.
-/

namespace EnclaveOS

/-- `read_state_t` of `readline` with `csi_buf` up to `csi_pos`. -/
inductive ReadlineState
  | normal
  | esc
  | csi (buf : List (BitVec 8))
deriving DecidableEq, Repr

inductive LineKey
  | up
  | down
  | right
  | left
  | home
  | «end»
  | delete
deriving DecidableEq, Repr

inductive LineAction
  | key (k : LineKey)
  /-- What the rest of the loop does with a character. -/
  | char (c : BitVec 8)
deriving DecidableEq, Repr

/-- The command that a sequence stands for. -/
def csiKey (buf : List (BitVec 8)) (c : BitVec 8) : Option LineKey :=
  if c = ascii 'A' ∧ buf = [] then some .up
  else if c = ascii 'B' ∧ buf = [] then some .down
  else if c = ascii 'C' ∧ buf = [] then some .right
  else if c = ascii 'D' ∧ buf = [] then some .left
  else if c = ascii 'H' ∧ buf = [] then some .home
  else if c = ascii 'F' ∧ buf = [] then some .end
  else if c = ascii '~' ∧ buf = [ascii '3'] then some .delete
  else none

/-- A character that is not inside a sequence. -/
def readlineNormal (c : BitVec 8) : ReadlineState × List LineAction :=
  if c = charEsc then (.esc, []) else (.normal, [.char c])

/-- One round of `readline`. -/
def readlineStep : ReadlineState → BitVec 8 → ReadlineState × List LineAction
  | .normal, c => readlineNormal c
  | .esc, c => if c = ascii '[' then (.csi [], []) else readlineNormal c
  | .csi buf, c =>
    if isDigit c ∨ c = ascii ';' ∨ c = ascii '?' then
      (.csi (if buf.length < 31 then buf ++ [c] else buf), [])
    else if 0x40 ≤ c ∧ c ≤ 0x7E then (.normal, ((csiKey buf c).map .key).toList)
    else (.normal, [])

/-- What `readline` makes of the characters that it reads. -/
def readlineChars : ReadlineState → List (BitVec 8) → ReadlineState × List LineAction
  | st, [] => (st, [])
  | st, c :: chars =>
    let (st, actions) := readlineStep st c
    let (st, more) := readlineChars st chars
    (st, actions ++ more)

theorem readlineChars_append (st : ReadlineState) (chars more : List (BitVec 8)) :
    (readlineChars st (chars ++ more)).1 =
      (readlineChars (readlineChars st chars).1 more).1 := by
  induction chars generalizing st with
  | nil => rfl
  | cons c chars ih => exact ih (readlineStep st c).1

/-- The sequences that the keys push. -/
theorem ansiSeq_cases {scancode : BitVec 8} {seq : List (BitVec 8)}
    (h : ansiSeq scancode = some seq) :
    (∃ final ∈ ['A', 'B', 'C', 'D', 'H', 'F'], seq = [charEsc, ascii '[', ascii final]) ∨
      seq = [charEsc, ascii '[', ascii '3', ascii '~'] := by
  unfold ansiSeq at h
  split_ifs at h <;> simp only [Option.some.injEq] at h <;> subst h <;> simp

/-- Whatever stands before a sequence, the parser is done with it at its end. -/
theorem readline_sequence {scancode : BitVec 8} {seq : List (BitVec 8)}
    (h : ansiSeq scancode = some seq) (st : ReadlineState) :
    (readlineChars st seq).1 = .normal := by
  have hesc : (readlineStep st charEsc).1 = .esc ∨ (readlineStep st charEsc).1 = .normal := by
    cases st with
    | normal => exact Or.inl rfl
    | esc => exact Or.inl rfl
    | csi buf => exact Or.inr rfl
  have hrest : ∀ chars, (readlineChars st (charEsc :: chars)).1 =
      (readlineChars (readlineStep st charEsc).1 chars).1 := fun _ => rfl
  rcases ansiSeq_cases h with ⟨final, hfinal, rfl⟩ | rfl
  · simp only [List.mem_cons, List.not_mem_nil, or_false] at hfinal
    rw [hrest]
    rcases hesc with hesc | hesc <;> rw [hesc] <;>
      rcases hfinal with rfl | rfl | rfl | rfl | rfl | rfl <;> rfl
  · rw [hrest]
    rcases hesc with hesc | hesc <;> rw [hesc] <;> rfl

/-- The keyboard with its ring. -/
structure KeyboardRun where
  keys : KbdKeys
  run : KbdRun

inductive KeyboardOp
  /-- The interrupt for a scancode. -/
  | irq (scancode : BitVec 8)
  /-- The next access of `k_getchar`. -/
  | getchar (tailFirst : Bool)
deriving DecidableEq, Repr

namespace KeyboardRun

def step (s : KeyboardRun) : KeyboardOp → KeyboardRun
  | .irq scancode =>
    ⟨(keyboardHandler s.keys scancode).1,
      (keyboardHandler s.keys scancode).2.foldl KbdRun.push s.run⟩
  | .getchar tailFirst => { s with run := s.run.getchar tailFirst }

def boot : KeyboardRun := ⟨⟨false, false, false, false⟩, .boot⟩

/-- The state after interrupts and accesses in any order. -/
def after (ops : List KeyboardOp) : KeyboardRun := ops.foldl step boot

/-- The sequence that a scancode pushes, after the prefix of the extended keys. -/
def sequenceOf (s : KeyboardRun) (scancode : BitVec 8) : Option (List (BitVec 8)) :=
  if s.keys.extendedKey then ansiSeq scancode else none

/-- The press of a key puts its sequence into the ring whole or not at all, and when it does the
reader of all that is in front of the next character is not inside a sequence. -/
structure KeyAtomic (s : KeyboardRun) (scancode : BitVec 8) (seq : List (BitVec 8)) : Prop where
  whole : (s.step (.irq scancode)).run.accepted = s.run.accepted ++ seq ∨
    (s.step (.irq scancode)).run.accepted = s.run.accepted
  reader : (s.step (.irq scancode)).run.accepted ≠ s.run.accepted →
    (readlineChars .normal (s.step (.irq scancode)).run.accepted).1 = .normal

/-- The ring is full, or has room for the sequence. -/
def FitsOrFull (s : KeyboardRun) (seq : List (BitVec 8)) : Prop :=
  s.run.unread = 255 ∨ s.run.unread + seq.length ≤ 255

/-- Every press in a run is atomic. -/
def PressesAtomic (ops : List KeyboardOp) : Prop :=
  ∀ before scancode rest seq, ops = before ++ .irq scancode :: rest →
    (after before).sequenceOf scancode = some seq → (after before).KeyAtomic scancode seq

/-- Every press in a run finds the ring full or with room for its sequence. -/
def PressesFit (ops : List KeyboardOp) : Prop :=
  ∀ before scancode rest seq, ops = before ++ .irq scancode :: rest →
    (after before).sequenceOf scancode = some seq → (after before).FitsOrFull seq

end KeyboardRun

/-- Several pushes in a row: the ring keeps the first ones, up to its size. -/
theorem KbdInv.accepted_pushes {s : KbdRun} (h : KbdInv s) (chars : List (BitVec 8)) :
    KbdInv (chars.foldl KbdRun.push s) ∧
      (chars.foldl KbdRun.push s).accepted = s.accepted ++ chars.take (255 - s.unread) := by
  induction chars generalizing s with
  | nil => exact ⟨h, by simp⟩
  | cons c chars ih =>
    obtain ⟨hinv, haccepted⟩ := ih (h.push c)
    refine ⟨hinv, ?_⟩
    rw [List.foldl_cons, haccepted]
    have hle := h.ring.taken_le
    have hiff := h.overflows_iff
    have hunread := h.unread_le
    unfold KbdRun.push
    split_ifs with hfull
    · have hzero : 255 - s.unread = 0 := by
        rw [hiff.mp hfull]
      simp only [KbdRun.unread] at hzero ⊢
      rw [hzero, List.take_zero, List.take_zero]
    · have hlt : s.unread ≠ 255 := fun heq => hfull (hiff.mpr heq)
      simp only [KbdRun.unread] at hlt hunread ⊢
      rw [List.length_append, List.length_singleton]
      obtain ⟨room, hroom⟩ : ∃ room, 255 - (s.accepted.length - s.taken.length) = room + 1 :=
        ⟨254 - (s.accepted.length - s.taken.length), by omega⟩
      have hnext : 255 - (s.accepted.length + 1 - s.taken.length) = room := by omega
      rw [hroom, hnext, List.take_succ_cons, List.append_assoc, List.singleton_append]

namespace KeyboardRun

variable {s : KeyboardRun} {scancode : BitVec 8} {seq : List (BitVec 8)}

theorem inv_after (ops : List KeyboardOp) : KbdInv (after ops).run := by
  have hrun : ∀ s : KeyboardRun, KbdInv s.run → KbdInv (ops.foldl step s).run := by
    induction ops with
    | nil => exact fun s h => h
    | cons op ops ih =>
      intro s h
      apply ih
      cases op with
      | irq scancode => exact (h.accepted_pushes _).1
      | getchar tailFirst => exact h.getchar tailFirst
  exact hrun boot .boot

/-- The handler pushes the sequence of an extended key. -/
theorem keyboardHandler_sequence (h : s.sequenceOf scancode = some seq) :
    (keyboardHandler s.keys scancode).2 = seq ∧ ansiSeq scancode = some seq := by
  unfold sequenceOf at h
  split_ifs at h with hextended
  refine ⟨?_, h⟩
  have hcodes : scancode ≠ 0xE0 ∧ scancode &&& 0x80 = 0 := by
    unfold ansiSeq at h
    split_ifs at h with h₁ h₂ h₃ h₄ h₅ h₆ h₇
    all_goals
      subst scancode
      decide
  unfold keyboardHandler
  rw [if_neg hcodes.1, if_pos hextended, if_neg (not_not.mpr hcodes.2), h]
  rfl

/-- A press is atomic exactly when its sequence fits, or nothing does. -/
theorem keyAtomic_iff (hinv : KbdInv s.run) (h : s.sequenceOf scancode = some seq) :
    s.KeyAtomic scancode seq ↔ s.FitsOrFull seq := by
  obtain ⟨hchars, hseq⟩ := keyboardHandler_sequence h
  obtain ⟨-, haccepted⟩ := hinv.accepted_pushes seq
  have hstep : (s.step (.irq scancode)).run.accepted =
      s.run.accepted ++ seq.take (255 - s.run.unread) := by
    rw [← haccepted, ← hchars]
    rfl
  have hle := hinv.unread_le
  have hne : seq ≠ [] := by
    rcases ansiSeq_cases hseq with ⟨final, -, rfl⟩ | rfl <;> simp
  unfold FitsOrFull
  constructor
  · intro hatomic
    rcases hatomic.whole with hwhole | hnone
    · rw [hstep, List.append_cancel_left_eq] at hwhole
      have hlength := congrArg List.length hwhole
      rw [List.length_take] at hlength
      omega
    · rw [hstep, List.append_right_eq_self, List.take_eq_nil_iff] at hnone
      have := hnone.resolve_right hne
      omega
  · rintro (hfull | hfits)
    · have hsame : (s.step (.irq scancode)).run.accepted = s.run.accepted := by
        rw [hstep, hfull, Nat.sub_self, List.take_zero, List.append_nil]
      exact ⟨Or.inr hsame, fun hdiff => absurd hsame hdiff⟩
    · have hwhole : (s.step (.irq scancode)).run.accepted = s.run.accepted ++ seq := by
        rw [hstep, List.take_of_length_le (by omega)]
      refine ⟨Or.inl hwhole, fun _ => ?_⟩
      rw [hwhole, readlineChars_append]
      exact readline_sequence hseq _

/-- In a run the presses are atomic exactly when each of them finds the ring full or with room for
its sequence. -/
theorem key_sequences_iff (ops : List KeyboardOp) : PressesAtomic ops ↔ PressesFit ops := by
  constructor
  · intro h before scancode rest seq hops hseq
    exact (keyAtomic_iff (inv_after before) hseq).mp (h before scancode rest seq hops hseq)
  · intro h before scancode rest seq hops hseq
    exact (keyAtomic_iff (inv_after before) hseq).mpr (h before scancode rest seq hops hseq)

/-- The letter a is typed 253 times and nobody reads; the arrow is cut after two characters. -/
theorem arrow_is_cut : ¬ ∀ ops, PressesAtomic ops := by
  intro h
  have hatomic := h (List.replicate 253 (.irq 0x1E) ++ [.irq 0xE0] ++ [.irq 0x48])
    (List.replicate 253 (.irq 0x1E) ++ [.irq 0xE0]) 0x48 [] [charEsc, ascii '[', ascii 'A']
    rfl (by decide +kernel)
  have hfits := (keyAtomic_iff (inv_after _) (by decide +kernel)).mp hatomic
  unfold FitsOrFull at hfits
  have hunread : (after (List.replicate 253 (.irq 0x1E) ++ [.irq 0xE0])).run.unread = 253 := by
    decide +kernel
  rw [hunread] at hfits
  simp at hfits

end KeyboardRun
end EnclaveOS

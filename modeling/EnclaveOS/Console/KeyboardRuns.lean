import EnclaveOS.Console.Keyboard

/-!
# KeyboardRuns - the keyboard ring under interrupts

Interrupts push characters between any two accesses of one `k_getchar`.  The producer writes the
slot and `kbd_head`, the consumer writes `kbd_tail`, and a value that the consumer has read
stays true enough: the slot it is about to read cannot be overwritten before `kbd_tail` moves.
-/

namespace EnclaveOS

/-- A push is dropped when 255 characters are unread, and an empty ring is one without any. -/
def KbdReport.Right : KbdReport → Prop
  | .pushed kept unread => kept = false ↔ unread = 255
  | .empty unread => unread = 0

/-- What the values mean that the reader holds. -/
def KbdRun.ReaderInv (s : KbdRun) : Prop :=
  match s.reader with
  | .outside | .entered => True
  | .readHead head => ∃ k, head = k % kbdBufferSize ∧ s.taken.length ≤ k ∧
      k ≤ s.accepted.length ∧ s.unreadAtTest = k - s.taken.length
  | .readTail tail => tail = s.taken.length % kbdBufferSize
  | .nonEmpty => s.taken.length < s.accepted.length
  | .index tail => tail = s.taken.length % kbdBufferSize ∧ s.taken.length < s.accepted.length
  | .char c => s.accepted[s.taken.length]? = some c
  | .advance c tail =>
      tail = s.taken.length % kbdBufferSize ∧ s.accepted[s.taken.length]? = some c

/-- The ring holds the characters that were accepted and not taken. -/
structure KbdInv (s : KbdRun) : Prop where
  ring : RingHolds kbdBufferSize s.ring.buffer s.accepted s.taken.length
  head : s.ring.head = s.accepted.length % kbdBufferSize
  tail : s.ring.tail = s.taken.length % kbdBufferSize
  order : s.taken <+: s.accepted
  reader : s.ReaderInv
  reports : ∀ r ∈ s.reports, r.Right

namespace KbdInv

variable {s : KbdRun}

theorem boot : KbdInv .boot :=
  ⟨.start (by decide) _, rfl, rfl, List.nil_prefix, trivial, by simp [KbdRun.boot]⟩

/-- The test of `kbd_buffer_push` counts the unread characters. -/
theorem overflows_iff (h : KbdInv s) : s.ring.Overflows ↔ s.unread = 255 := by
  have hle := h.ring.taken_le
  unfold KbdRing.Overflows KbdRun.unread
  rw [h.head, h.tail, Nat.mod_add_mod, h.ring.full_iff]
  unfold kbdBufferSize
  omega

theorem unread_le (h : KbdInv s) : s.unread ≤ 255 := by
  have hroom := h.ring.room
  unfold KbdRun.unread
  unfold kbdBufferSize at hroom
  omega

/-- A character more does not change what the reader knows. -/
theorem readerInv_append (h : KbdInv s) (c : BitVec 8) {s' : KbdRun}
    (haccepted : s'.accepted = s.accepted ++ [c]) (htaken : s'.taken = s.taken)
    (hreader : s'.reader = s.reader) (htest : s'.unreadAtTest = s.unreadAtTest) :
    s'.ReaderInv := by
  have hinv := h.reader
  unfold KbdRun.ReaderInv at *
  rw [hreader, htaken, haccepted, htest, List.length_append]
  split at hinv
  · trivial
  · trivial
  · obtain ⟨k, hhead, hlow, hhigh, hunread⟩ := hinv
    exact ⟨k, hhead, hlow, by omega, hunread⟩
  · exact hinv
  · exact hinv.trans_le (Nat.le_add_right _ _)
  · exact ⟨hinv.1, hinv.2.trans_le (Nat.le_add_right _ _)⟩
  · rw [List.getElem?_append_left (List.getElem?_eq_some_iff.mp hinv).1]
    exact hinv
  · rw [List.getElem?_append_left (List.getElem?_eq_some_iff.mp hinv.2).1]
    exact hinv

/-- An interrupt. -/
theorem push (h : KbdInv s) (c : BitVec 8) : KbdInv (s.push c) := by
  have hiff := h.overflows_iff
  unfold KbdRun.push
  split_ifs with hfull
  · refine ⟨h.ring, h.head, h.tail, h.order, h.reader, ?_⟩
    simpa [KbdReport.Right, hiff.mp hfull] using h.reports
  · have hne : s.unread ≠ 255 := fun hunread => hfull (hiff.mpr hunread)
    have hle := h.unread_le
    have hroom : s.accepted.length + 1 < s.taken.length + kbdBufferSize := by
      have := h.ring.taken_le
      unfold KbdRun.unread at hne hle
      unfold kbdBufferSize
      omega
    constructor
    case ring =>
      have hput := h.ring.put hroom c
      rw [← h.head] at hput
      simpa [KbdRing.push, hfull] using hput
    case head => simp [KbdRing.push, hfull, h.head]
    case tail => simpa [KbdRing.push, hfull] using h.tail
    case order => exact h.order.trans (List.prefix_append _ _)
    case reader => exact h.readerInv_append c rfl rfl rfl rfl
    case reports => simpa [KbdReport.Right, hne] using h.reports

/-- The comparison finds no character only where there was none when `kbd_head` was read. -/
theorem test (h : KbdInv s) {k : Nat} (hlow : s.taken.length ≤ k) (hhigh : k ≤ s.accepted.length)
    (hunread : s.unreadAtTest = k - s.taken.length) :
    KbdInv (s.test (k % kbdBufferSize) (s.taken.length % kbdBufferSize)) := by
  have hroom := h.ring.room
  have hiff := mod_eq_mod_iff_of_lt hlow (hhigh.trans_lt hroom)
  unfold KbdRun.test
  split_ifs with hempty
  · have hzero : s.unreadAtTest = 0 := by
      rw [hunread, hiff.mp hempty, Nat.sub_self]
    refine ⟨h.ring, h.head, h.tail, h.order, trivial, ?_⟩
    simpa [KbdReport.Right, hzero] using h.reports
  · have hne : k ≠ s.taken.length := fun heq => hempty (hiff.mpr heq)
    have hlt : s.taken.length < s.accepted.length := by omega
    exact ⟨h.ring, h.head, h.tail, h.order, hlt, h.reports⟩

/-- The character that the reader holds leaves the ring. -/
theorem advance (h : KbdInv s) {c : BitVec 8} (hc : s.accepted[s.taken.length]? = some c) :
    KbdInv { s with
      ring := { s.ring with tail := (s.taken.length % kbdBufferSize + 1) % kbdBufferSize },
      reader := .outside, taken := s.taken ++ [c] } := by
  have hlt := (List.getElem?_eq_some_iff.mp hc).1
  constructor
  case ring => simpa using (h.ring.take hlt).2
  case head => exact h.head
  case tail => simp
  case order =>
    obtain ⟨rest, hrest⟩ := h.order
    cases rest with
    | nil =>
      rw [← hrest] at hlt
      simp at hlt
    | cons x rest =>
      rw [← hrest, List.getElem?_append_right le_rfl, Nat.sub_self, List.getElem?_cons_zero,
        Option.some.injEq] at hc
      subst hc
      exact ⟨rest, by rw [List.append_assoc, List.singleton_append, hrest]⟩
  case reader => trivial
  case reports => exact h.reports

/-- One access of `k_getchar`. -/
theorem getchar (h : KbdInv s) (tailFirst : Bool) : KbdInv (s.getchar tailFirst) := by
  obtain ⟨hring, hhead, htail, horder, hreader, hreports⟩ := id h
  have hle := hring.taken_le
  unfold KbdRun.ReaderInv at hreader
  unfold KbdRun.getchar
  cases heq : s.reader with
  | outside => exact ⟨hring, hhead, htail, horder, trivial, hreports⟩
  | entered =>
    cases tailFirst with
    | true => exact ⟨hring, hhead, htail, horder, htail, hreports⟩
    | false =>
      exact ⟨hring, hhead, htail, horder, ⟨s.accepted.length, hhead, hle, le_rfl, rfl⟩, hreports⟩
  | readHead head =>
    rw [heq] at hreader
    obtain ⟨k, rfl, hlow, hhigh, hunread⟩ := hreader
    dsimp only
    rw [htail]
    exact h.test hlow hhigh hunread
  | readTail tail =>
    rw [heq] at hreader
    have htested : KbdInv { s with unreadAtTest := s.unread, reader := .entered } :=
      ⟨hring, hhead, htail, horder, trivial, hreports⟩
    dsimp only
    rw [show tail = s.taken.length % kbdBufferSize from hreader, hhead]
    exact htested.test hle le_rfl rfl
  | nonEmpty =>
    rw [heq] at hreader
    exact ⟨hring, hhead, htail, horder, ⟨htail, hreader⟩, hreports⟩
  | index tail =>
    rw [heq] at hreader
    obtain ⟨rfl, hlt⟩ := hreader
    exact ⟨hring, hhead, htail, horder, (hring.take hlt).1, hreports⟩
  | char c =>
    rw [heq] at hreader
    exact ⟨hring, hhead, htail, horder, ⟨htail, hreader⟩, hreports⟩
  | advance c tail =>
    rw [heq] at hreader
    obtain ⟨rfl, hc⟩ := hreader
    exact h.advance hc

theorem step (h : KbdInv s) (op : KbdOp) : KbdInv (s.step op) := by
  cases op with
  | push c => exact h.push c
  | getchar tailFirst => exact h.getchar tailFirst

theorem run (h : KbdInv s) (ops : List KbdOp) : KbdInv (ops.foldl KbdRun.step s) := by
  induction ops generalizing s with
  | nil => exact h
  | cons op ops ih => exact ih (h.step op)

end KbdInv

/-- The ring is a queue that loses nothing it has accepted. -/
structure KbdFifo (s : KbdRun) : Prop where
  order : s.taken <+: s.accepted
  reports : ∀ r ∈ s.reports, r.Right

/-- Whatever interrupts come between the accesses of `k_getchar`, the characters are taken in the
order in which they were pushed, a push is dropped when 255 characters are unread and only then, and
the ring is found empty only when no character is unread. -/
theorem keyboard_fifo (ops : List KbdOp) : KbdFifo (ops.foldl KbdRun.step .boot) := by
  have hinv := KbdInv.boot.run ops
  exact ⟨hinv.order, hinv.reports⟩

end EnclaveOS

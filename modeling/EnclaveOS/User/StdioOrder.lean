import EnclaveOS.Foundation.Transfer
import EnclaveOS.User.Stdio

/-!
# StdioOrder - the order of what a stream writes

The buffered writers append to `write_buffer`, whose bytes come after everything delivered;
`vfprintf` delivers at once and so overtakes them.
-/

namespace EnclaveOS

open PageWord Transfer

variable {W : Type*} {sys : UserSys W} {fd : Int}

/-- An open descriptor whose `sys_write` accepts all its bytes, with the bytes delivered. -/
structure Sink (sys : UserSys W) (fd : Int) where
  isOpen : W → Prop
  delivered : W → List (BitVec 8)
  write_ret : ∀ w bytes, isOpen w → (sys.sysWrite fd bytes w).1 = bytes.length
  write_isOpen : ∀ w bytes, isOpen w → isOpen (sys.sysWrite fd bytes w).2
  write_delivered : ∀ w bytes, isOpen w →
    delivered (sys.sysWrite fd bytes w).2 = delivered w ++ bytes
  close_delivered : ∀ w, isOpen w → delivered (sys.sysClose fd w).2 = delivered w

namespace Sink

variable (sink : Sink sys fd) {s : Stdio W}

/-- A stream on the descriptor. -/
structure Ready (s : Stdio W) : Prop where
  fd_eq : s.file.fd = fd
  isOpen : sink.isOpen s.libc.world

/-- The bytes delivered, and then those pending. -/
def total (s : Stdio W) : List (BitVec 8) := sink.delivered s.libc.world ++ s.file.writeBuffer

theorem ready_opened {libc : Libc W} (h : sink.isOpen libc.world) :
    sink.Ready ⟨File.opened fd, libc⟩ :=
  ⟨rfl, h⟩

@[simp]
theorem total_opened (libc : Libc W) :
    sink.total ⟨File.opened fd, libc⟩ = sink.delivered libc.world := by
  simp [total, File.opened]

/-- A flush moves the pending bytes and empties the buffer. -/
theorem fflushWrite_spec (h : sink.Ready s) :
    (fflushWrite sys s).1 = true ∧ sink.Ready (fflushWrite sys s).2 ∧
      sink.total (fflushWrite sys s).2 = sink.total s ∧
      (fflushWrite sys s).2.file.writeBuffer = [] := by
  obtain ⟨rfl, hopen⟩ := h
  have hret := sink.write_ret s.libc.world s.file.writeBuffer hopen
  have hdelivered := sink.write_delivered s.libc.world s.file.writeBuffer hopen
  unfold fflushWrite
  split_ifs with hempty
  · exact ⟨rfl, ⟨rfl, hopen⟩, rfl, List.length_eq_zero_iff.mp hempty⟩
  · have haccepted : ¬ (sys.sysWrite s.file.fd s.file.writeBuffer s.libc.world).1 < 0 := by
      rw [hret]
      omega
    dsimp only
    rw [if_neg haccepted]
    refine ⟨rfl, ⟨rfl, sink.write_isOpen _ _ hopen⟩, ?_, rfl⟩
    simp [total, hdelivered]

/-- There is room for a byte afterwards. -/
theorem makeRoom_spec (h : sink.Ready s) :
    (makeRoom sys s).1 = true ∧ sink.Ready (makeRoom sys s).2 ∧
      sink.total (makeRoom sys s).2 = sink.total s ∧
      (makeRoom sys s).2.file.writeBuffer.length < fileBufferSize := by
  unfold makeRoom
  split_ifs with hfull
  · obtain ⟨hok, hready, htotal, hempty⟩ := sink.fflushWrite_spec h
    refine ⟨hok, hready, htotal, ?_⟩
    simp [hempty, fileBufferSize]
  · exact ⟨rfl, h, rfl, Nat.lt_of_not_le hfull⟩

theorem ready_store (h : sink.Ready s) (bytes : List (BitVec 8)) :
    sink.Ready { s with file := s.file.store bytes } :=
  ⟨h.fd_eq, h.isOpen⟩

@[simp]
theorem total_store (s : Stdio W) (bytes : List (BitVec 8)) :
    sink.total { s with file := s.file.store bytes } =
      sink.total s ++ bytes.take (fileBufferSize - s.file.writeBuffer.length) := by
  simp [total, File.store]

/-- The loop takes every byte. -/
theorem fwriteLoop_spec {rounds : Nat} {src : List (BitVec 8)} (hrounds : src.length ≤ rounds)
    (h : sink.Ready s) :
    (fwriteLoop sys rounds src s).1 = [] ∧ sink.Ready (fwriteLoop sys rounds src s).2 ∧
      sink.total (fwriteLoop sys rounds src s).2 = sink.total s ++ src := by
  induction rounds generalizing src s with
  | zero =>
    have hnil : src = [] := List.length_eq_zero_iff.mp (by omega)
    subst hnil
    simpa [fwriteLoop] using h
  | succ rounds ih =>
    cases src with
    | nil => simpa [fwriteLoop] using h
    | cons c src =>
      obtain ⟨hok, hready, htotal, hroom⟩ := sink.makeRoom_spec h
      have hready' := sink.ready_store hready (c :: src)
      -- the bytes stored now are at least one
      have hrest : ((c :: src).drop
          (fileBufferSize - (makeRoom sys s).2.file.writeBuffer.length)).length ≤ rounds := by
        simp only [List.length_drop, List.length_cons] at hrounds ⊢
        omega
      obtain ⟨hleft, hready'', htotal'⟩ := ih hrest hready'
      simp only [fwriteLoop, hok, if_true]
      refine ⟨hleft, hready'', ?_⟩
      rw [htotal', total_store, htotal, List.append_assoc, List.take_append_drop]

theorem fwrite_spec (arg : FwriteArg) (h : sink.Ready s) :
    sink.Ready (fwrite sys arg s).2 ∧
      sink.total (fwrite sys arg s).2 = sink.total s ++ arg.data := by
  have hcovers := arg.covers
  have hfits := arg.fits
  unfold fwrite
  split_ifs with hzero
  · have hnil : arg.data = [] := by
      apply List.length_eq_zero_iff.mp
      obtain hsize | hnmemb := hzero
      · simp [hcovers, hsize]
      · simp [hcovers, hnmemb]
    exact ⟨h, by rw [hnil, List.append_nil]⟩
  · have hbytes : (arg.size * arg.nmemb).toNat = arg.data.length := by
      rw [BitVec.toNat_mul, ← hcovers]
      exact Nat.mod_eq_of_lt hfits
    rw [hbytes]
    dsimp only
    rw [List.take_length]
    exact (sink.fwriteLoop_spec le_rfl h).2

theorem fwrite_total (arg : FwriteArg) (h : sink.Ready s) :
    sink.total (fwrite sys arg s).2 = sink.total s ++ arg.data :=
  (sink.fwrite_spec arg h).2

theorem fputc_spec (c : Word) (h : sink.Ready s) :
    sink.Ready (fputc sys c s).2 ∧
      sink.total (fputc sys c s).2 = sink.total s ++ [c.setWidth 8] := by
  obtain ⟨hok, hready, htotal, hroom⟩ := sink.makeRoom_spec h
  have hone : [c.setWidth 8].take
      (fileBufferSize - (makeRoom sys s).2.file.writeBuffer.length) = [c.setWidth 8] := by
    apply List.take_of_length_le
    simp only [List.length_singleton]
    omega
  simp only [fputc, hok, if_true]
  constructor
  · exact sink.ready_store hready _
  · rw [total_store, htotal, hone]

theorem vfprintf_ready (fmt : CString) (args : VaList) (h : sink.Ready s) :
    sink.Ready (vfprintf sys fmt args s).2 := by
  unfold vfprintf write
  dsimp only
  split_ifs
  · exact h
  all_goals
    refine ⟨h.fd_eq, ?_⟩
    dsimp only
    rw [h.fd_eq]
    exact sink.write_isOpen _ _ h.isOpen

/-- `vfprintf` puts its text before the pending bytes. -/
theorem vfprintf_total (fmt : CString) (args : VaList) (h : sink.Ready s) :
    sink.total (vfprintf sys fmt args s).2 =
      sink.delivered s.libc.world ++ vsnprintf printfBufferSize fmt args ++
        s.file.writeBuffer := by
  unfold vfprintf write
  dsimp only
  split_ifs with hnil hneg
  · simp [total, List.length_eq_zero_iff.mp hnil]
  all_goals
    unfold total
    dsimp only
    rw [h.fd_eq, sink.write_delivered _ _ h.isOpen]

/-- The text is where it belongs exactly when it commutes with the pending bytes. -/
theorem vfprintf_total_iff (fmt : CString) (args : VaList) (h : sink.Ready s) :
    sink.total (vfprintf sys fmt args s).2 =
        sink.total s ++ vsnprintf printfBufferSize fmt args ↔
      vsnprintf printfBufferSize fmt args ++ s.file.writeBuffer =
        s.file.writeBuffer ++ vsnprintf printfBufferSize fmt args := by
  rw [sink.vfprintf_total fmt args h, total, List.append_assoc, List.append_assoc]
  exact List.append_right_inj _

/-- Closing delivers what is pending. -/
theorem fclose_delivered (h : sink.Ready s) :
    sink.delivered (fclose sys s).2.world = sink.total s := by
  unfold fclose
  dsimp only
  split_ifs with hpending
  · obtain ⟨-, hready, htotal, hempty⟩ := sink.fflushWrite_spec h
    rw [hready.fd_eq, sink.close_delivered _ hready.isOpen, ← htotal, total, hempty,
      List.append_nil]
  · have hempty : s.file.writeBuffer = [] := List.length_eq_zero_iff.mp (by omega)
    rw [h.fd_eq, sink.close_delivered _ h.isOpen, total, hempty, List.append_nil]

end Sink

/-- A call that writes to the stream. -/
inductive OutCall
  | fwrite (arg : FwriteArg)
  | fputc (c : Word)
  | fputs (str : CString)
  | fprintf (fmt : CString) (args : VaList)
  | vfprintf (fmt : CString) (args : VaList)
  | fflush

namespace OutCall

variable (sys) in
def run (s : Stdio W) : OutCall → Stdio W
  | fwrite arg => (EnclaveOS.fwrite sys arg s).2
  | fputc c => (EnclaveOS.fputc sys c s).2
  | fputs str => (EnclaveOS.fputs sys str s).2
  | fprintf fmt args => (EnclaveOS.fprintf sys fmt args s).2
  | vfprintf fmt args => (EnclaveOS.vfprintf sys fmt args s).2
  | fflush => (EnclaveOS.fflush sys s).2

/-- The text of a call that writes past the buffer. -/
def direct : OutCall → List (BitVec 8)
  | fprintf fmt args | vfprintf fmt args => vsnprintf printfBufferSize fmt args
  | _ => []

/-- The bytes that a call produces. -/
def produces : OutCall → List (BitVec 8)
  | fwrite arg => arg.data
  | fputc c => [c.setWidth 8]
  | fputs str => str.chars
  | fprintf fmt args | vfprintf fmt args => vsnprintf printfBufferSize fmt args
  | fflush => []

/-- The pending bytes and the text of the call read the same in either order. -/
def KeepsOrder (s : Stdio W) (call : OutCall) : Prop :=
  call.direct ++ s.file.writeBuffer = s.file.writeBuffer ++ call.direct

variable (sink : Sink sys fd)

theorem run_ready {s : Stdio W} (call : OutCall) (h : sink.Ready s) :
    sink.Ready (call.run sys s) := by
  cases call with
  | fwrite arg => exact (sink.fwrite_spec arg h).1
  | fputc c => exact (sink.fputc_spec c h).1
  | fputs str => exact (sink.fwrite_spec str.toFwriteArg h).1
  | fprintf fmt args => exact sink.vfprintf_ready fmt args h
  | vfprintf fmt args => exact sink.vfprintf_ready fmt args h
  | fflush => exact (sink.fflushWrite_spec h).2.1

/-- One call appends its bytes exactly when it overtakes nothing. -/
theorem run_total_iff {s : Stdio W} (call : OutCall) (h : sink.Ready s) :
    sink.total (call.run sys s) = sink.total s ++ call.produces ↔ call.KeepsOrder s := by
  cases call with
  | fwrite arg => simp [run, produces, KeepsOrder, direct, sink.fwrite_total arg h]
  | fputc c => simp [run, produces, KeepsOrder, direct, (sink.fputc_spec c h).2]
  | fputs str =>
    have htotal := sink.fwrite_total str.toFwriteArg h
    simpa [run, produces, KeepsOrder, direct, EnclaveOS.fputs] using htotal
  | fprintf fmt args => exact sink.vfprintf_total_iff fmt args h
  | vfprintf fmt args => exact sink.vfprintf_total_iff fmt args h
  | fflush =>
    have htotal := (sink.fflushWrite_spec h).2.2.1
    simp [run, produces, KeepsOrder, direct, EnclaveOS.fflush, htotal]

end OutCall

/-- The bytes delivered after the calls and `fclose`, on a stream just opened. -/
def Sink.closedAfter (sink : Sink sys fd) (libc : Libc W) (calls : List OutCall) :
    List (BitVec 8) :=
  sink.delivered (fclose sys (calls.foldl (OutCall.run sys) ⟨File.opened fd, libc⟩)).2.world

/-- After every prefix of the calls and `fclose`, the bytes delivered are those the calls
produced in their order, if and only if no call of `fprintf` or `vfprintf` overtakes
pending bytes. -/
theorem stdio_output_order (sink : Sink sys fd) (libc : Libc W) (hopen : sink.isOpen libc.world)
    (calls : List OutCall) :
    (∀ pre, pre <+: calls →
      sink.closedAfter libc pre = sink.delivered libc.world ++ pre.flatMap OutCall.produces) ↔
    ∀ pre call, pre ++ [call] <+: calls →
      call.KeepsOrder (pre.foldl (OutCall.run sys) ⟨File.opened fd, libc⟩) := by
  have hready := sink.ready_opened hopen
  have hinv : ∀ s call, sink.Ready s → sink.Ready (OutCall.run sys s call) :=
    fun s call h => OutCall.run_ready sink call h
  rw [← foldl_total_iff hinv (fun s call h => OutCall.run_total_iff sink call h) hready]
  apply forall_congr'
  intro pre
  apply imp_congr_right
  intro _
  rw [Sink.closedAfter, sink.fclose_delivered (foldl_inv hinv hready), Sink.total_opened]

/-- A kernel with one file, to which every descriptor appends. -/
def appendSys : UserSys (List (BitVec 8)) where
  sysOpen := fun _ _ _ w => (3, w)
  sysClose := fun _ w => (0, w)
  sysRead := fun _ _ w => (.ok [], w)
  sysWrite := fun _ bytes w => (bytes.length, w ++ bytes)
  sysBrk := fun top w => (top.toInt, w)

def appendSink (fd : Int) : Sink appendSys fd where
  isOpen := fun _ => True
  delivered := id
  write_ret := fun _ _ _ => rfl
  write_isOpen := fun _ _ _ => trivial
  write_delivered := fun _ _ _ => rfl
  close_delivered := fun _ _ => rfl

/-- A string of one character. -/
def CString.single (c : BitVec 8) (h : c ≠ 0) : CString where
  chars := [c]
  noNul := by simpa using h.symm
  short := by simp

def noArgs : VaList := fun _ => ⟨0, CString.single 1 (by decide)⟩

def textA : CString := CString.single (ascii 'a') (by decide)
def textB : CString := CString.single (ascii 'b') (by decide)

/-- `fputs("a")` and then `fprintf("b")` deliver the b first. -/
theorem fprintf_overtakes :
    (appendSink 3).closedAfter ⟨0, 0, []⟩ [.fputs textA, .fprintf textB noArgs] ≠
      [OutCall.fputs textA, .fprintf textB noArgs].flatMap OutCall.produces := by
  decide

/-- With a flush between them the order is kept. -/
theorem stdio_output_order_flushed :
    (∀ pre, pre <+: [OutCall.fputs textA, .fflush, .fprintf textB noArgs] →
      (appendSink 3).closedAfter ⟨0, 0, []⟩ pre = [] ++ pre.flatMap OutCall.produces) ↔
    ∀ pre call, pre ++ [call] <+: [OutCall.fputs textA, .fflush, .fprintf textB noArgs] →
      call.KeepsOrder (pre.foldl (OutCall.run appendSys) ⟨File.opened 3, ⟨0, 0, []⟩⟩) :=
  stdio_output_order (appendSink 3) ⟨0, 0, []⟩ trivial _

end EnclaveOS

import Mathlib.Data.List.Basic

/-!
# Foundation - critical sections

Code that turns interrupts off and on, and updates objects that it shares with the interrupt
handlers.  A run keeps a trace of the moments at which the flag is written or a shared object
is updated.  The state, the objects and the results are arbitrary.
-/

namespace EnclaveOS

/-- The interrupt flag after an instruction, and the shared object that it updates. -/
structure Moment (κ : Type) where
  irqOn : Bool
  object : Option κ

/-- The end of a run. -/
structure Ran (κ σ α : Type) where
  value : α
  irqOn : Bool
  state : σ
  moments : List (Moment κ)

/-- Code entered with a flag in a state; `none` is code that goes wrong. -/
structure Irq (κ σ α : Type) where
  run : Bool → σ → Option (Ran κ σ α)

namespace Irq

variable {κ σ α β : Type}

instance : Monad (Irq κ σ) where
  pure a := ⟨fun on s => some ⟨a, on, s, []⟩⟩
  bind p f := ⟨fun on s =>
    (p.run on s).bind fun r =>
      ((f r.value).run r.irqOn r.state).map fun r' =>
        { r' with moments := r.moments ++ r'.moments }⟩

def cli : Irq κ σ Unit := ⟨fun _ s => some ⟨(), false, s, [⟨false, none⟩]⟩⟩

def sti : Irq κ σ Unit := ⟨fun _ s => some ⟨(), true, s, [⟨true, none⟩]⟩⟩

/-- `pushf`. -/
def readFlags : Irq κ σ Bool := ⟨fun on s => some ⟨on, on, s, []⟩⟩

/-- `popf`. -/
def loadFlags (flags : Bool) : Irq κ σ Unit :=
  ⟨fun _ s => some ⟨(), flags, s, [⟨flags, none⟩]⟩⟩

def get : Irq κ σ σ := ⟨fun on s => some ⟨s, on, s, []⟩⟩

/-- An update of a shared object. -/
def touch (x : κ) (f : σ → Option σ) : Irq κ σ Unit :=
  ⟨fun on s => (f s).map fun s' => ⟨(), on, s', [⟨on, some x⟩]⟩⟩

/-- A write to memory that no handler looks at. -/
def write (f : σ → σ) : Irq κ σ Unit := ⟨fun on s => some ⟨(), on, f s, []⟩⟩

def fail : Irq κ σ α := ⟨fun _ _ => none⟩

/-- A section that saves the flag, and restores what it has saved. -/
def critical (body : Irq κ σ α) : Irq κ σ α := do
  let flags ← readFlags
  cli
  let a ← body
  loadFlags flags
  return a

@[simp]
theorem cli_run (on : Bool) (s : σ) :
    (cli : Irq κ σ Unit).run on s = some ⟨(), false, s, [⟨false, none⟩]⟩ :=
  rfl

@[simp]
theorem sti_run (on : Bool) (s : σ) :
    (sti : Irq κ σ Unit).run on s = some ⟨(), true, s, [⟨true, none⟩]⟩ :=
  rfl

@[simp]
theorem get_run (on : Bool) (s : σ) : (get : Irq κ σ σ).run on s = some ⟨s, on, s, []⟩ :=
  rfl

@[simp]
theorem touch_run (x : κ) (f : σ → Option σ) (on : Bool) (s : σ) :
    (touch x f).run on s = (f s).map fun s' => ⟨(), on, s', [⟨on, some x⟩]⟩ :=
  rfl

@[simp]
theorem write_run (f : σ → σ) (on : Bool) (s : σ) :
    (write f : Irq κ σ Unit).run on s = some ⟨(), on, f s, []⟩ :=
  rfl

@[simp]
theorem fail_run (on : Bool) (s : σ) : (fail : Irq κ σ α).run on s = none :=
  rfl

@[simp]
theorem pure_run (a : α) (on : Bool) (s : σ) :
    (pure a : Irq κ σ α).run on s = some ⟨a, on, s, []⟩ :=
  rfl

@[simp]
theorem bind_run (p : Irq κ σ α) (f : α → Irq κ σ β) (on : Bool) (s : σ) :
    (p >>= f).run on s = (p.run on s).bind fun r =>
      ((f r.value).run r.irqOn r.state).map fun r' =>
        { r' with moments := r.moments ++ r'.moments } :=
  rfl

theorem bind_eq_some {p : Irq κ σ α} {f : α → Irq κ σ β} {on : Bool} {s : σ} {r : Ran κ σ β} :
    (p >>= f).run on s = some r ↔ ∃ r₁ r₂, p.run on s = some r₁ ∧
      (f r₁.value).run r₁.irqOn r₁.state = some r₂ ∧
      r = { r₂ with moments := r₁.moments ++ r₂.moments } := by
  simp only [bind_run, Option.bind_eq_some_iff, Option.map_eq_some_iff]
  constructor
  · rintro ⟨r₁, h₁, r₂, h₂, rfl⟩
    exact ⟨r₁, r₂, h₁, h₂, rfl⟩
  · rintro ⟨r₁, r₂, h₁, h₂, rfl⟩
    exact ⟨r₁, h₁, r₂, h₂, rfl⟩

/-- The section is its body with the flag cleared before and restored after. -/
@[simp]
theorem critical_run (body : Irq κ σ α) (on : Bool) (s : σ) :
    (critical body).run on s = (body.run false s).map fun r =>
      ⟨r.value, on, r.state, ⟨false, none⟩ :: (r.moments ++ [⟨on, none⟩])⟩ := by
  unfold critical
  simp only [bind_run, readFlags, cli, loadFlags, pure_run, Option.bind_some, Option.map_some]
  cases body.run false s <;> simp

/-- The object is updated at one of the moments. -/
def Touched (x : κ) (moments : List (Moment κ)) : Prop := ∃ m ∈ moments, m.object = some x

/-- From the first update of the object to the last one the flag is clear. -/
def Guarded (x : κ) (moments : List (Moment κ)) : Prop :=
  ∀ before m after, moments = before ++ m :: after → Touched x (before ++ [m]) →
    Touched x (m :: after) → m.irqOn = false

/-- The flag is as it was found, and the flag is clear while a shared object changes. -/
structure Disciplined (on : Bool) (r : Ran κ σ α) : Prop where
  flag : r.irqOn = on
  guarded : ∀ x, Guarded x r.moments

/-- Nothing but the section's own writes of the flag: entered with the flag clear, it is never
set. -/
def Quiet (p : Irq κ σ α) : Prop :=
  ∀ s r, p.run false s = some r → r.irqOn = false ∧ ∀ m ∈ r.moments, m.irqOn = false

@[simp]
theorem touched_nil (x : κ) : ¬ Touched x [] := by
  simp [Touched]

@[simp]
theorem touched_cons (x : κ) (m : Moment κ) (moments : List (Moment κ)) :
    Touched x (m :: moments) ↔ m.object = some x ∨ Touched x moments := by
  simp [Touched]

@[simp]
theorem touched_append (x : κ) (moments moments' : List (Moment κ)) :
    Touched x (moments ++ moments') ↔ Touched x moments ∨ Touched x moments' := by
  simp [Touched, or_and_right, exists_or]

theorem guarded_of_clear {x : κ} {moments : List (Moment κ)}
    (h : ∀ m ∈ moments, m.irqOn = false) : Guarded x moments := by
  intro before m after hmoments _ _
  apply h
  simp [hmoments]

theorem guarded_of_not_touched {x : κ} {moments : List (Moment κ)} (h : ¬ Touched x moments) :
    Guarded x moments := by
  intro before m after hmoments hbefore _
  refine absurd ?_ h
  rw [hmoments, ← List.singleton_append, ← List.append_assoc, touched_append]
  exact Or.inl hbefore

/-- What comes before the first update does not matter. -/
theorem Guarded.append_left {x : κ} {moments : List (Moment κ)} (h : Guarded x moments)
    {head : List (Moment κ)} (hhead : ¬ Touched x head) : Guarded x (head ++ moments) := by
  intro before m after hmoments hbefore hafter
  obtain ⟨rest, rfl, hrest⟩ | ⟨rest, rfl, hrest⟩ := List.append_eq_append_iff.mp hmoments
  · apply h rest m after hrest ?_ hafter
    rw [List.append_assoc, touched_append] at hbefore
    exact hbefore.resolve_left hhead
  · cases rest with
    | nil =>
      rw [List.nil_append] at hrest
      refine h [] m after hrest.symm ?_ hafter
      rw [List.append_nil] at hhead
      rw [touched_append] at hbefore
      exact hbefore.resolve_left hhead
    | cons c rest =>
      rw [List.cons_append] at hrest
      cases hrest
      refine absurd ?_ hhead
      rw [← List.singleton_append, ← List.append_assoc, touched_append]
      exact Or.inl hbefore

/-- What comes after the last update does not matter. -/
theorem Guarded.append_right {x : κ} {moments : List (Moment κ)} (h : Guarded x moments)
    {tail : List (Moment κ)} (htail : ¬ Touched x tail) : Guarded x (moments ++ tail) := by
  intro before m after hmoments hbefore hafter
  obtain ⟨rest, rfl, hrest⟩ | ⟨rest, rfl, hrest⟩ := List.append_eq_append_iff.mp hmoments
  · refine absurd ?_ htail
    rw [hrest, touched_append]
    exact Or.inr hafter
  · cases rest with
    | nil =>
      rw [List.nil_append] at hrest
      refine absurd ?_ htail
      rwa [← hrest]
    | cons c rest =>
      rw [List.cons_append] at hrest
      cases hrest
      apply h before m rest rfl hbefore
      rw [← List.cons_append, touched_append] at hafter
      exact hafter.resolve_right htail

/-- An update with the flag set. -/
theorem not_guarded_of_mem {x : κ} {moments : List (Moment κ)} {m : Moment κ} (hm : m ∈ moments)
    (hx : m.object = some x) (hset : m.irqOn = true) : ¬ Guarded x moments := by
  intro h
  obtain ⟨before, after, rfl⟩ := List.append_of_mem hm
  have hclear := h before m after rfl (by simp [hx]) (by simp [hx])
  simp [hset] at hclear

/-- The flag is set between two updates. -/
theorem not_guarded {x : κ} {head mid tail : List (Moment κ)} (hhead : Touched x head)
    (hset : ∃ m ∈ mid, m.irqOn = true) (htail : Touched x tail) :
    ¬ Guarded x (head ++ mid ++ tail) := by
  intro h
  obtain ⟨m, hm, hset⟩ := hset
  obtain ⟨before, after, rfl⟩ := List.append_of_mem hm
  have hclear := h (head ++ before) m (after ++ tail) (by simp) (by simp [hhead]) (by simp [htail])
  simp [hset] at hclear

theorem quiet_pure (a : α) : Quiet (pure a : Irq κ σ α) := by
  intro s r h
  rw [pure_run] at h
  cases h
  simp

theorem quiet_get : Quiet (get : Irq κ σ σ) := by
  intro s r h
  cases h
  simp

theorem quiet_write (f : σ → σ) : Quiet (write f : Irq κ σ Unit) := by
  intro s r h
  cases h
  simp

theorem quiet_fail : Quiet (fail : Irq κ σ α) := by
  intro s r h
  cases h

theorem quiet_touch (x : κ) (f : σ → Option σ) : Quiet (touch x f) := by
  intro s r h
  obtain ⟨s', -, rfl⟩ := Option.map_eq_some_iff.mp h
  simp

theorem Quiet.bind {p : Irq κ σ α} {f : α → Irq κ σ β} (hp : Quiet p) (hf : ∀ a, Quiet (f a)) :
    Quiet (p >>= f) := by
  intro s r h
  obtain ⟨r₁, r₂, h₁, h₂, rfl⟩ := bind_eq_some.mp h
  obtain ⟨hoff₁, hclear₁⟩ := hp s r₁ h₁
  rw [hoff₁] at h₂
  obtain ⟨hoff₂, hclear₂⟩ := hf r₁.value r₁.state r₂ h₂
  refine ⟨hoff₂, ?_⟩
  simp only [List.mem_append]
  rintro m (hm | hm)
  · exact hclear₁ m hm
  · exact hclear₂ m hm

/-- A section that saves the flag keeps it clear where it was clear. -/
theorem Quiet.critical {body : Irq κ σ α} (h : Quiet body) : Quiet (critical body) := by
  intro s r hrun
  rw [critical_run] at hrun
  obtain ⟨r', hr', rfl⟩ := Option.map_eq_some_iff.mp hrun
  have hclear := (h s r' hr').2
  refine ⟨rfl, ?_⟩
  simp only [List.mem_cons, List.mem_append, List.not_mem_nil, or_false]
  rintro m (rfl | hm | rfl)
  · rfl
  · exact hclear m hm
  · rfl

/-- A section that saves the flag is disciplined however it is entered. -/
theorem Quiet.critical_disciplined {body : Irq κ σ α} (h : Quiet body) {on : Bool} {s : σ}
    {r : Ran κ σ α} (hrun : (Irq.critical body).run on s = some r) : Disciplined on r := by
  rw [critical_run] at hrun
  obtain ⟨r', hr', rfl⟩ := Option.map_eq_some_iff.mp hrun
  have hclear := (h s r' hr').2
  refine ⟨rfl, fun x => ?_⟩
  rw [← List.cons_append]
  apply Guarded.append_right
  · apply guarded_of_clear
    simpa using hclear
  · simp

/-- Code that neither writes the flag nor updates a shared object. -/
def Silent (p : Irq κ σ α) : Prop :=
  ∀ on s r, p.run on s = some r → r.irqOn = on ∧ r.moments = []

/-- Code that is disciplined however it is entered. -/
def Saves (p : Irq κ σ α) : Prop := ∀ on s r, p.run on s = some r → Disciplined on r

theorem silent_pure (a : α) : Silent (pure a : Irq κ σ α) := by
  intro on s r h
  rw [pure_run] at h
  cases h
  exact ⟨rfl, rfl⟩

theorem silent_get : Silent (get : Irq κ σ σ) := by
  intro on s r h
  cases h
  exact ⟨rfl, rfl⟩

theorem silent_write (f : σ → σ) : Silent (write f : Irq κ σ Unit) := by
  intro on s r h
  cases h
  exact ⟨rfl, rfl⟩

theorem silent_fail : Silent (fail : Irq κ σ α) := by
  intro on s r h
  cases h

theorem Silent.bind {p : Irq κ σ α} {f : α → Irq κ σ β} (hp : Silent p)
    (hf : ∀ a, Silent (f a)) : Silent (p >>= f) := by
  intro on s r h
  obtain ⟨r₁, r₂, h₁, h₂, rfl⟩ := bind_eq_some.mp h
  obtain ⟨hon₁, hnone₁⟩ := hp on s r₁ h₁
  obtain ⟨hon₂, hnone₂⟩ := hf r₁.value r₁.irqOn r₁.state r₂ h₂
  exact ⟨hon₂.trans hon₁, by simp [hnone₁, hnone₂]⟩

theorem Silent.saves {p : Irq κ σ α} (h : Silent p) : Saves p := by
  intro on s r hrun
  obtain ⟨hon, hnone⟩ := h on s r hrun
  exact ⟨hon, fun x => guarded_of_not_touched (by simp [hnone])⟩

theorem Silent.bind_saves {p : Irq κ σ α} {f : α → Irq κ σ β} (hp : Silent p)
    (hf : ∀ a, Saves (f a)) : Saves (p >>= f) := by
  intro on s r h
  obtain ⟨r₁, r₂, h₁, h₂, rfl⟩ := bind_eq_some.mp h
  obtain ⟨hon₁, hnone₁⟩ := hp on s r₁ h₁
  obtain ⟨hflag, hguarded⟩ := hf r₁.value r₁.irqOn r₁.state r₂ h₂
  exact ⟨hflag.trans hon₁, fun x => by simpa [hnone₁] using hguarded x⟩

theorem Saves.bind_silent {p : Irq κ σ α} {f : α → Irq κ σ β} (hp : Saves p)
    (hf : ∀ a, Silent (f a)) : Saves (p >>= f) := by
  intro on s r h
  obtain ⟨r₁, r₂, h₁, h₂, rfl⟩ := bind_eq_some.mp h
  obtain ⟨hflag, hguarded⟩ := hp on s r₁ h₁
  obtain ⟨hon₂, hnone₂⟩ := hf r₁.value r₁.irqOn r₁.state r₂ h₂
  exact ⟨hon₂.trans hflag, fun x => by simpa [hnone₂] using hguarded x⟩

theorem Quiet.saves_critical {body : Irq κ σ α} (h : Quiet body) : Saves (Irq.critical body) :=
  fun _ _ _ hrun => h.critical_disciplined hrun

/-- The state and the result, with the flag forgotten. -/
def Erases (p : Irq κ σ α) (f : σ → Option (σ × α)) : Prop :=
  ∀ on s, (p.run on s).map (fun r => (r.state, r.value)) = f s

theorem erases_pure (a : α) : Erases (pure a : Irq κ σ α) fun s => some (s, a) :=
  fun _ _ => rfl

theorem Erases.bind {p : Irq κ σ α} {f : σ → Option (σ × α)} {q : α → Irq κ σ β}
    {g : α → σ → Option (σ × β)} (hp : Erases p f) (hq : ∀ a, Erases (q a) (g a)) :
    Erases (p >>= q) fun s => (f s).bind fun r => g r.2 r.1 := by
  intro on s
  dsimp only
  rw [bind_run, ← hp on s]
  cases p.run on s with
  | none => rfl
  | some r =>
    have hq' := hq r.value r.irqOn r.state
    simp only [Option.bind_some, Option.map_map, Option.map_some]
    exact hq'

theorem Erases.critical {body : Irq κ σ α} {f : σ → Option (σ × α)} (h : Erases body f) :
    Erases (Irq.critical body) f := by
  intro on s
  rw [critical_run, ← h false s, Option.map_map]
  rfl

theorem Erases.run_eq {p : Irq κ σ α} {f : σ → Option (σ × α)} (h : Erases p f) (on : Bool)
    {s s' : σ} {a : α} (hf : f s = some (s', a)) :
    ∃ on' moments, p.run on s = some ⟨a, on', s', moments⟩ := by
  rw [← h on s, Option.map_eq_some_iff] at hf
  obtain ⟨⟨value, on', state, moments⟩, hrun, heq⟩ := hf
  cases heq
  exact ⟨on', moments, hrun⟩

theorem Erases.run_eq_none {p : Irq κ σ α} {f : σ → Option (σ × α)} (h : Erases p f) (on : Bool)
    {s : σ} (hf : f s = none) : p.run on s = none := by
  rw [← h on s] at hf
  exact Option.map_eq_none_iff.mp hf

/-- Code on a part of the state. -/
def zoom {τ : Type} (part : σ → τ) (put : τ → σ → σ) (p : Irq κ τ α) : Irq κ σ Unit :=
  ⟨fun on s => (p.run on (part s)).map fun r => ⟨(), r.irqOn, put r.state s, r.moments⟩⟩

theorem zoom_eq_some {τ : Type} {part : σ → τ} {put : τ → σ → σ} {p : Irq κ τ α} {on : Bool}
    {s : σ} {r : Ran κ σ Unit} (h : (zoom part put p).run on s = some r) :
    ∃ r', p.run on (part s) = some r' ∧ (Disciplined on r ↔ Disciplined on r') := by
  obtain ⟨r', hr', rfl⟩ := Option.map_eq_some_iff.mp h
  refine ⟨r', hr', ?_⟩
  constructor <;> exact fun hd => ⟨hd.flag, hd.guarded⟩

end Irq
end EnclaveOS

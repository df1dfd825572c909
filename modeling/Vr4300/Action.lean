import Vr4300.Log

/-! Steps on a device that leave a record.

An `Action` changes a state and reports, in order, the calls it made on the device and the log
records it issued. Sequencing concatenates the reports, so `Outcome.calls` and `Outcome.logs` of a
compound step are those of its parts (`Action.run_bind`). `Action.scan` runs a list of steps. -/

namespace Vr4300

inductive Event (κ : Type) where
  | call (c : κ)
  | log (r : Log.Record)
  deriving DecidableEq, Repr

namespace Event

variable {κ : Type}

def call? : Event κ → Option κ
  | call c => some c
  | log _ => none

def log? : Event κ → Option Log.Record
  | call _ => none
  | log r => some r

end Event

structure Outcome (κ σ α : Type) where
  value : α
  state : σ
  events : List (Event κ)

namespace Outcome

variable {κ σ α : Type}

def calls (o : Outcome κ σ α) : List κ := o.events.filterMap Event.call?

def logs (o : Outcome κ σ α) : List Log.Record := o.events.filterMap Event.log?

end Outcome

/-- A step on a state `σ` that makes calls of type `κ`. -/
def Action (κ σ α : Type) : Type := σ → Outcome κ σ α

namespace Action

variable {κ σ α β ι : Type}

def run (x : Action κ σ α) (s : σ) : Outcome κ σ α := x s

instance : Monad (Action κ σ) where
  pure a s := ⟨a, s, []⟩
  bind x f s :=
    let o := x.run s
    let o' := (f o.value).run o.state
    ⟨o'.value, o'.state, o.events ++ o'.events⟩

/-- One call on the device; `c` says how it is recorded. -/
def call (c : σ → κ) (f : σ → α × σ) : Action κ σ α := fun s =>
  let r := f s
  ⟨r.1, r.2, [.call (c s)]⟩

/-- A change that leaves no record. -/
def silent (f : σ → α × σ) : Action κ σ α := fun s =>
  let r := f s
  ⟨r.1, r.2, []⟩

def log (level : Log.Level) (message : String) : Action κ σ Unit := fun s =>
  ⟨(), s, [.log (Log.record level message)]⟩

@[simp] theorem run_pure (a : α) (s : σ) : (pure a : Action κ σ α).run s = ⟨a, s, []⟩ := rfl

theorem run_bind (x : Action κ σ α) (f : α → Action κ σ β) (s : σ) :
    (x >>= f).run s =
      let o := x.run s
      let o' := (f o.value).run o.state
      ⟨o'.value, o'.state, o.events ++ o'.events⟩ := rfl

@[simp] theorem run_map (f : α → β) (x : Action κ σ α) (s : σ) :
    (f <$> x).run s = ⟨f (x.run s).value, (x.run s).state, (x.run s).events⟩ :=
  congrArg (Outcome.mk (f (x s).value) (x s).state) (List.append_nil _)

@[simp] theorem run_silent (f : σ → α × σ) (s : σ) :
    (silent f : Action κ σ α).run s = ⟨(f s).1, (f s).2, []⟩ := rfl

@[simp] theorem run_call (c : σ → κ) (f : σ → α × σ) (s : σ) :
    (call c f).run s = ⟨(f s).1, (f s).2, [.call (c s)]⟩ := rfl

@[simp] theorem run_log (level : Log.Level) (message : String) (s : σ) :
    (log level message : Action κ σ Unit).run s = ⟨(), s, [.log (Log.record level message)]⟩ := rfl

instance : LawfulMonad (Action κ σ) := .mk' _
  (fun x => funext fun s => congrArg (Outcome.mk (x s).value (x s).state) (List.append_nil _))
  (fun _ _ => rfl)
  (fun _ _ _ => funext fun _ => congrArg (Outcome.mk _ _) (List.append_assoc ..))

/-! ## Runs of several steps -/

/-- The outcome of each step, started in the state that the one before it left. -/
def scan (step : ι → Action κ σ α) : List ι → σ → List (Outcome κ σ α)
  | [], _ => []
  | i :: is, s =>
    let o := (step i).run s
    o :: scan step is o.state

/-- The state after all steps. -/
def finalState (step : ι → Action κ σ α) : List ι → σ → σ
  | [], s => s
  | i :: is, s => finalState step is ((step i).run s).state

@[simp] theorem length_scan (step : ι → Action κ σ α) (is : List ι) (s : σ) :
    (scan step is s).length = is.length := by
  induction is generalizing s with
  | nil => rfl
  | cons i is ih => simp [scan, ih]

theorem scan_append (step : ι → Action κ σ α) (is is' : List ι) (s : σ) :
    scan step (is ++ is') s = scan step is s ++ scan step is' (finalState step is s) := by
  induction is generalizing s with
  | nil => rfl
  | cons i is ih => simp [scan, finalState, ih]

theorem finalState_append (step : ι → Action κ σ α) (is is' : List ι) (s : σ) :
    finalState step (is ++ is') s = finalState step is' (finalState step is s) := by
  induction is generalizing s with
  | nil => rfl
  | cons i is ih => simp [finalState, ih]

end Action

end Vr4300

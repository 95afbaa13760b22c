import PartialHorn.Event

namespace PartialHorn

/-- What becomes of a state under an action: an answer or an error, the state that is left in either
case, and the events reported on the way. -/
structure Outcome (σ ε α : Type) where
  answer : Except ε α
  after : σ
  events : List Event := []

/-- A step that may change a state, may fail and may report events. Its answer and its changes never
depend on what was reported before. -/
def Action (σ ε α : Type) : Type :=
  σ → Outcome σ ε α

namespace Action

variable {σ ε φ α β : Type}

/-- Answers without looking at the state. -/
def give (a : α) : Action σ ε α :=
  fun s => { answer := .ok a, after := s }

/-- Runs one action after another; an error ends the run and keeps the changes made so far. -/
def andThen (first : Action σ ε α) (next : α → Action σ ε β) : Action σ ε β :=
  fun s =>
    let one := first s
    match one.answer with
    | .error e => { answer := .error e, after := one.after, events := one.events }
    | .ok a =>
      let two := next a one.after
      { answer := two.answer, after := two.after, events := one.events ++ two.events }

instance instMonad : Monad (Action σ ε) where
  pure := give
  bind := andThen

def fail (e : ε) : Action σ ε α :=
  fun s => { answer := .error e, after := s }

/-- Answers a question about the state, which stays as it is. -/
def ask (question : σ → Except ε α) : Action σ ε α :=
  fun s => { answer := question s, after := s }

/-- Answers with a result that was computed without changing anything. -/
def ofExcept (result : Except ε α) : Action σ ε α :=
  fun s => { answer := result, after := s }

def ofOption (e : ε) : Option α → Action σ ε α
  | some a => give a
  | none => fail e

def refuse : Option ε → Action σ ε Unit
  | some e => fail e
  | none => give ()

def report (event : Event) : Action σ ε Unit :=
  fun s => { answer := .ok (), after := s, events := [event] }

def mapError (rename : ε → φ) (action : Action σ ε α) : Action σ φ α :=
  fun s =>
    let one := action s
    { answer := one.answer.mapError rename, after := one.after, events := one.events }

def each (action : α → Action σ ε Unit) : List α → Action σ ε Unit
  | [] => give ()
  | a :: rest => andThen (action a) fun _ => each action rest

@[simp]
theorem pure_eq_give (a : α) : (pure a : Action σ ε α) = give a :=
  rfl

@[simp]
theorem bind_eq_andThen (first : Action σ ε α) (next : α → Action σ ε β) :
    (first >>= next) = andThen first next :=
  rfl

variable {s : σ}

/-- After an answer the second action runs on what the first one left. -/
theorem andThen_of_ok {first : Action σ ε α} {next : α → Action σ ε β} {a : α}
    (h : (first s).answer = .ok a) :
    andThen first next s =
      { answer := (next a (first s).after).answer
        after := (next a (first s).after).after
        events := (first s).events ++ (next a (first s).after).events } := by
  simp [andThen, h]

theorem andThen_of_error {first : Action σ ε α} {next : α → Action σ ε β} {e : ε}
    (h : (first s).answer = .error e) :
    andThen first next s =
      { answer := .error e, after := (first s).after, events := (first s).events } := by
  simp [andThen, h]

end Action

end PartialHorn

/-
# Runs

A run creates the first generation and then steps from generation to generation.  Before each step
it is at a boundary, where it may end: converged if the target is reached, else stopped if that has
been asked for, else exhausted if there are no generations left.

Listeners are told of each generation after it is in place.  They may ask for a stop, which is
honoured at the next boundary, they may change who listens, which shows from the next generation
on, and they may fail, which ends the run there and then.
-/
import FormulaEvolution.Algorithm.Generation

namespace FormulaEvolution

/-! ## 1. Listeners -/

/-- A change to who listens. -/
inductive Enrolment where
  | join (name : String)
  | leave (name : String)
  deriving DecidableEq, Repr

/-- What a listener does about an event. -/
structure Reaction where
  stop : Bool := false
  enrolments : List Enrolment := []
  failure : Option Failure := none

/-- What surrounds a run, with states in `τ`: how listeners react to events, and a signal that asks
for a stop from outside and is looked at only at boundaries. -/
structure Surroundings (τ : Type) where
  hear : String → GenerationEvent → τ → Reaction × τ
  signal : τ → Bool × τ

namespace Evolution

variable {σ τ : Type}

/-- Change who listens, until a change is refused. -/
def enrol (e : Evolution σ) : List Enrolment → Except Failure Unit × Evolution σ
  | [] => (.ok (), e)
  | .join name :: changes => (e.listen name).enrol changes
  | .leave name :: changes =>
    match e.unlisten name with
    | .ok e => e.enrol changes
    | .error failure => (.error failure, e)

/-- Do what a listener asks for. -/
def heed (e : Evolution σ) (reaction : Reaction) : Except Failure Unit × Evolution σ :=
  match ({ e with stopRequested := e.stopRequested || reaction.stop }).enrol reaction.enrolments with
  | (.error failure, e) => (.error failure, e)
  | (.ok (), e) =>
    match reaction.failure with
    | some failure => (.error failure, e)
    | none => (.ok (), e)

/-- Tell listeners of an event, one after the other, until one fails. -/
def tell (s : Surroundings τ) (event : GenerationEvent) :
    List String → Evolution σ → τ → Except Failure Unit × Evolution σ × τ
  | [], e, t => (.ok (), e, t)
  | name :: names, e, t =>
    let (reaction, t) := s.hear name event t
    match e.heed reaction with
    | (.error failure, e) => (.error failure, e, t)
    | (.ok (), e) => tell s event names e t

/-! ## 2. Steps -/

/-- Tell those who listen now of the generation that is in place. -/
def announce (s : Surroundings τ) (e : Evolution σ) (t : τ) :
    Except Failure Unit × Evolution σ × τ := tell s e.event e.listeners e t

variable [RandomSource σ]

/-- Make the next generation and tell the listeners. -/
def step (s : Surroundings τ) (e : Evolution σ) (t : τ) : Except Failure Unit × Evolution σ × τ :=
  match e.advance with
  | (.error failure, e) => (.error failure, e, t)
  | (.ok (), e) => announce s e t

/-! ## 3. Boundaries -/

/-- Whether a stop has been asked for, from inside or from outside. -/
def stopDue (s : Surroundings τ) (e : Evolution σ) (t : τ) : Bool × τ :=
  if e.stopRequested then (true, t) else s.signal t

/-- The phase that a run ends in at this boundary, if it ends. -/
def ending (s : Surroundings τ) (e : Evolution σ) (t : τ) : Option Phase × τ :=
  if e.targetReached then (some .converged, t)
  else
    let (due, t) := stopDue s e t
    if due then (some .stopped, t)
    else if e.limits.maxGenerations ≤ e.generation then (some .exhausted, t)
    else (none, t)

/-- How many generations are left. -/
def remaining (e : Evolution σ) : Nat := (e.limits.maxGenerations - e.generation).toNat

/-- End a run: a request to stop is used up. -/
def finish (e : Evolution σ) (phase : Phase) : Evolution σ :=
  { e with phase, stopRequested := false }

/-! ## 4. Runs -/

/-- Step from boundary to boundary, at most `bound` times. -/
def runOn (s : Surroundings τ) : Nat → Evolution σ → τ → Except Failure Unit × Evolution σ × τ
  | 0, e, t =>
    let (phase, t) := ending s e t
    (.ok (), e.finish (phase.getD .exhausted), t)
  | bound + 1, e, t =>
    match ending s e t with
    | (some phase, t) => (.ok (), e.finish phase, t)
    | (none, t) =>
      match step s e t with
      | (.error failure, e, t) => (.error failure, e, t)
      | (.ok (), e, t) => runOn s bound e t

/-- Run until an end is reached; the best candidate is then in the evolution. -/
def run (s : Surroundings τ) (e : Evolution σ) (t : τ) : Except Failure Unit × Evolution σ × τ :=
  match e.start with
  | (.error failure, e) => (.error failure, e, t)
  | (.ok (), e) =>
    let e := { e with phase := .running }
    runOn s e.remaining e t

end Evolution
end FormulaEvolution

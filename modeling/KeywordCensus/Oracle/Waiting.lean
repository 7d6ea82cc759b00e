import KeywordCensus.Oracle.Process

/-!
# Waiting for a process

A process takes time. Who waits for it looks whether it is over, gives up if the clock shows the
deadline by then, and else sleeps for a while and looks again. What is seen of the process is how it
ended, or that it had not ended by the last look; it is then killed. Moments are counted in
nanoseconds from the start of the process.
-/

namespace KeywordCensus

/-- A program that runs: what it does if it is left alone, and for how long. -/
structure Process where
  /-- What it writes, and how it ends. -/
  behaviour : Behaviour
  /-- The moment of its end, if it has one. -/
  lasts : Nat

/-- Is the process over at a moment? -/
def Process.IsOver (p : Process) (moment : Nat) : Prop :=
  p.behaviour.ending ≠ .hangs ∧ p.lasts ≤ moment

instance (p : Process) : DecidablePred p.IsOver := fun moment =>
  inferInstanceAs (Decidable (p.behaviour.ending ≠ .hangs ∧ p.lasts ≤ moment))

/-- A span in nanoseconds. -/
def Span.nanoseconds (d : Span) : Nat := d.milliseconds * 1000000

/-- The sleep between two looks at a process. -/
def pollInterval : Span := ⟨10⟩

/-- How a process is waited for: the moment from which the time that it has is counted, the moments at
which it is looked at, and those at which the clock is read after a look in vain. Everything may take
longer than it should, but no sleep is too short. -/
structure Watch where
  /-- When the time begins. -/
  begins : Nat
  /-- When the process is looked at. -/
  look : Nat → Nat
  /-- When the clock is read after that. -/
  read : Nat → Nat
  begins_le_look : begins ≤ look 0
  look_le_read : ∀ i, look i ≤ read i
  read_add_le_look : ∀ i, read i + pollInterval.nanoseconds ≤ look (i + 1)

namespace Watch

/-- When the time is up. -/
def deadline (w : Watch) (limit : Span) : Nat := w.begins + limit.nanoseconds

theorem read_lt_read_succ (w : Watch) (i : Nat) : w.read i < w.read (i + 1) := by
  have hsleep : 0 < pollInterval.nanoseconds := by decide
  have hlook := w.read_add_le_look i
  have hread := w.look_le_read (i + 1)
  omega

/-- Wait for a process from a look on. -/
def await (w : Watch) (p : Process) (deadline : Nat) (i : Nat) : Ending :=
  if p.IsOver (w.look i) then p.behaviour.ending
  else if deadline ≤ w.read i then .hangs
  else w.await p deadline (i + 1)
termination_by deadline - w.read i
decreasing_by
  have hlater := w.read_lt_read_succ i
  omega

end Watch

/-- The same writing with another end. -/
def Behaviour.withEnding (b : Behaviour) (e : Ending) : Behaviour := { b with ending := e }

@[simp] theorem Behaviour.stdout_withEnding (b : Behaviour) (e : Ending) :
    (b.withEnding e).stdout = b.stdout := rfl

@[simp] theorem Behaviour.stderr_withEnding (b : Behaviour) (e : Ending) :
    (b.withEnding e).stderr = b.stderr := rfl

@[simp] theorem Behaviour.ending_withEnding (b : Behaviour) (e : Ending) :
    (b.withEnding e).ending = e := rfl

/-- What is seen of a process by who waits for it until the time is up. -/
def Process.seen (p : Process) (w : Watch) (limit : Span) : Behaviour :=
  p.behaviour.withEnding (w.await p (w.deadline limit) 0)

/-- A machine on which programs take time, as it is seen by who waits for them so long. -/
def Machine.watched (programs : FileTree → Location → List String → Process) (w : Watch)
    (limit : Span) (clock : Nat) : Machine :=
  ⟨fun t place arguments => (programs t place arguments).seen w limit, clock, Disk.reliable,
    Hosts.silent⟩

end KeywordCensus

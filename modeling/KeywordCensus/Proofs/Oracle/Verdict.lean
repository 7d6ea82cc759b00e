import Mathlib.Order.Nat
import KeywordCensus.Oracle.Waiting
import KeywordCensus.Settings.Validated

/-!
# What becomes of a question to the parser

A process has until the last look at it, the first one after which the clock shows the deadline
(`Watch.await_eq`). The answer to a question should depend on nothing but that: whether the process
could be started, whether it was over by the last look, how it ended, and what it printed if it ended
well (`ProcessOracle.Verdict`, `ProcessOracle.Verdict.unique`). It does, with two exceptions
(`ProcessOracle.verdict_parse_iff`): a time that ends beyond the clock breaks off the run, and output
that is no text, of whatever kind, counts as a process that could not be run.
-/

namespace KeywordCensus

/-! ## The last look -/

namespace Watch

variable {w : Watch} {p : Process} {deadline last i j : Nat}

/-- The last look: the first one after which the clock shows the deadline. -/
def IsLast (w : Watch) (deadline last : Nat) : Prop :=
  deadline ≤ w.read last ∧ ∀ i < last, w.read i < deadline

/-- At every look the clock reads at least the number of looks before it. -/
theorem le_read (w : Watch) (i : Nat) : i ≤ w.read i := by
  induction i with
  | zero => exact Nat.zero_le _
  | succ i ih =>
    have hlater := w.read_lt_read_succ i
    omega

/-- Every deadline has a last look, as the clock passes it in the end. -/
theorem exists_isLast (w : Watch) (deadline : Nat) : ∃ last, w.IsLast deadline last := by
  have hshown : ∃ i, deadline ≤ w.read i := ⟨deadline, w.le_read deadline⟩
  exact ⟨Nat.find hshown, Nat.find_spec hshown, fun i hi => not_le.mp (Nat.find_min hshown hi)⟩

theorem look_mono (h : i ≤ j) : w.look i ≤ w.look j := by
  induction j, h using Nat.le_induction with
  | base => exact Nat.le_refl _
  | succ j _ ih =>
    have hread := w.look_le_read j
    have hlook := w.read_add_le_look j
    omega

/-- Who has looked in vain before the deadline looks again. -/
theorem await_succ (hover : ¬ p.IsOver (w.look i)) (hread : w.read i < deadline) :
    w.await p deadline i = w.await p deadline (i + 1) := by
  rw [await, if_neg hover, if_neg (by omega)]

/-- A process that is over by a look is awaited no longer. -/
theorem await_of_isOver (hover : p.IsOver (w.look i)) :
    w.await p deadline i = p.behaviour.ending := by
  rw [await, if_pos hover]

/-- **Waiting shows how a process ended if it was over by the last look.** The induction is over the
looks that are left; a process that is over at one of them is over at the last one. -/
theorem await_eq (h : w.IsLast deadline last) (hi : i ≤ last) :
    w.await p deadline i =
      if p.IsOver (w.look last) then p.behaviour.ending else .hangs := by
  induction hleft : last - i generalizing i with
  | zero =>
    obtain rfl : i = last := by omega
    by_cases hover : p.IsOver (w.look i)
    · rw [await_of_isOver hover, if_pos hover]
    · rw [await, if_neg hover, if_pos h.1, if_neg hover]
  | succ left ih =>
    by_cases hover : p.IsOver (w.look i)
    · have hlast : p.IsOver (w.look last) := ⟨hover.1, hover.2.trans (look_mono hi)⟩
      rw [await_of_isOver hover, if_pos hlast]
    · rw [await_succ hover (h.2 i (by omega)), ih (by omega) (by omega)]

end Watch

/-- What is seen of a process is its ending if it is over by the last look, and else that it hangs.
-/
theorem Process.ending_seen {p : Process} {w : Watch} {limit : Span} {last : Nat}
    (h : w.IsLast (w.deadline limit) last) : (p.seen w limit).ending =
      if p.IsOver (w.look last) then p.behaviour.ending else .hangs := by
  rw [seen, Behaviour.ending_withEnding]
  exact Watch.await_eq h (Nat.zero_le last)

/-! ## The time that is given -/

theorem exists_of_bind_eq_ok {ε α β : Type} {x : Except ε α} {next : α → Except ε β} {b : β}
    (h : x >>= next = .ok b) : ∃ a, x = .ok a ∧ next a = .ok b := by
  cases x with
  | error e => cases h
  | ok a => exact ⟨a, rfl, h⟩

/-- Validated settings give the parser whole seconds, and at least one. -/
theorem Arguments.timeout_of_validate {a : Arguments} {settings : CensusSettings}
    {report : ReportSettings} (h : a.validate = .ok (settings, report)) :
    ∃ seconds, 1 ≤ seconds ∧ settings.timeout = .ofSeconds seconds := by
  -- The checks come one after the other; the one of the seconds is what counts.
  rw [validate] at h
  obtain ⟨directory, -, h⟩ := exists_of_bind_eq_ok h
  obtain ⟨output, -, h⟩ := exists_of_bind_eq_ok h
  obtain ⟨remotes, -, h⟩ := exists_of_bind_eq_ok h
  obtain ⟨source, -, h⟩ := exists_of_bind_eq_ok h
  dsimp only at h
  split at h
  · obtain ⟨_, hrefused, -⟩ := exists_of_bind_eq_ok h
    cases hrefused
  rename_i hseconds
  split at h
  · obtain ⟨_, hrefused, -⟩ := exists_of_bind_eq_ok h
    cases hrefused
  obtain ⟨exclusion, -, h⟩ := exists_of_bind_eq_ok h
  cases h
  exact ⟨_, Nat.one_le_iff_ne_zero.mpr hseconds, rfl⟩

/-! ## Runs of the program -/

/-- Is what a process wrote text? -/
def Behaviour.Readable (b : Behaviour) : Prop :=
  (String.fromUTF8? b.stdout).isSome ∧ (String.fromUTF8? b.stderr).isSome

theorem Ending.eq_lost_of_loss? {e : Ending} {reason : String} (h : e.loss? = some reason) :
    e = .lost reason := by
  cases e with
  | lost other =>
    cases h
    rfl
  | exits status | killed signal | hangs => cases h

/-- Has the process ended in a way that is known, but written something that is no text? -/
def Process.Garbled (p : Process) (moment : Nat) : Prop :=
  p.IsOver moment ∧ p.behaviour.ending.loss? = none ∧ ¬ p.behaviour.Readable

namespace ProcessOracle

variable {o : ProcessOracle} {m : Machine} {t : FileTree} {file : Path} {arguments : List String}
  {place : Location} {out err : String}

/-- Does the time that a process has end beyond the clock? -/
def Overflows (clock : Nat) (limit : Span) : Prop := lastSecond < clock + limit.seconds

section Started

variable (hstart : startable t o.binary = .ok place)

include hstart

theorem run_of_overflows (h : Overflows m.clock o.timeout) :
    o.run m t arguments = .error .clockOverflow := by
  rw [run, hstart]
  exact if_pos h

variable (hclock : ¬ Overflows m.clock o.timeout)

include hclock

/-- A process that hangs at the last look is a timeout. -/
theorem run_of_hangs (h : (m.run t place arguments).ending = .hangs) :
    o.run m t arguments = .error (.timeout o.timeout) := by
  rw [run, hstart]
  exact (if_neg hclock).trans (if_pos (.inl h))

variable (hpos : o.timeout.milliseconds ≠ 0)

include hpos

theorem run_of_lost {reason : String} (h : (m.run t place arguments).ending = .lost reason) :
    o.run m t arguments = .error (.notRun o.binary reason) := by
  rw [run, hstart]
  refine (if_neg hclock).trans ((if_neg ?_).trans ?_)
  · rw [h]
    exact not_or.mpr ⟨fun heq => (nomatch heq), hpos⟩
  · rw [h]
    rfl

variable (hends : (m.run t place arguments).ending ≠ .hangs)
  (hloss : (m.run t place arguments).ending.loss? = none)

include hends hloss

theorem run_of_readable (hout : String.fromUTF8? (m.run t place arguments).stdout = some out)
    (herr : String.fromUTF8? (m.run t place arguments).stderr = some err) :
    o.run m t arguments =
      if (m.run t place arguments).ending.isSuccess then .ok out
      else .error (.rejected (m.run t place arguments).ending.text (Text.trim err)) := by
  rw [run, hstart]
  refine (if_neg hclock).trans ((if_neg (not_or.mpr ⟨hends, hpos⟩)).trans ?_)
  rw [hloss]
  dsimp only
  rw [hout]
  dsimp only
  rw [herr]

/-- With a stream that is no text the run is reported as not run, whatever the status. -/
theorem run_of_not_readable (h : ¬ (m.run t place arguments).Readable) :
    o.run m t arguments = .error (.notRun o.binary IoError.invalidText.message) := by
  rw [run, hstart]
  refine (if_neg hclock).trans ((if_neg (not_or.mpr ⟨hends, hpos⟩)).trans ?_)
  rw [hloss]
  dsimp only
  cases hout : String.fromUTF8? (m.run t place arguments).stdout with
  | none => rfl
  | some out =>
    cases herr : String.fromUTF8? (m.run t place arguments).stderr with
    | none => rfl
    | some err => exact absurd ⟨hout ▸ rfl, herr ▸ rfl⟩ h

end Started

/-! ## Answers -/

/-- The answer that a question deserves: the start of the process, whether it was over at a moment and
how it ended decide, and what it printed only if it ended well. -/
inductive Verdict (o : ProcessOracle) (start : Except IoError Location)
    (process : Location → Process) (moment : Nat) : Except OracleError Json → Prop where
  /-- The process could not be started. -/
  | unstarted {cause : IoError} (hstart : start = .error cause) :
    Verdict o start process moment (.error (.notRun o.binary cause.message))
  /-- It could not be waited for. -/
  | lost {place : Location} {reason : String} (hstart : start = .ok place)
      (hover : (process place).IsOver moment)
      (hlost : (process place).behaviour.ending = .lost reason) :
    Verdict o start process moment (.error (.notRun o.binary reason))
  /-- It was not over in time. -/
  | late {place : Location} (hstart : start = .ok place)
      (hlate : ¬ (process place).IsOver moment) :
    Verdict o start process moment (.error (.timeout o.timeout))
  /-- It ended badly, and said something about that if what it wrote is text. -/
  | rejected {place : Location} {text : String} (hstart : start = .ok place)
      (hover : (process place).IsOver moment)
      (hknown : (process place).behaviour.ending.loss? = none)
      (hfailed : (process place).behaviour.ending.isSuccess = false)
      (htext : ∀ err, String.fromUTF8? (process place).behaviour.stderr = some err →
        text = Text.trim err) :
    Verdict o start process moment
      (.error (.rejected (process place).behaviour.ending.text text))
  /-- It ended well, and what it printed is no document. -/
  | malformed {place : Location} (hstart : start = .ok place)
      (hover : (process place).IsOver moment)
      (hsuccess : (process place).behaviour.ending.isSuccess = true)
      (hdocument : ∀ out, String.fromUTF8? (process place).behaviour.stdout = some out →
        Json.read out = none) :
    Verdict o start process moment (.error (.malformed Json.refusal))
  /-- It ended well, and printed a document. -/
  | parsed {place : Location} {out : String} {tree : Json} (hstart : start = .ok place)
      (hover : (process place).IsOver moment)
      (hsuccess : (process place).behaviour.ending.isSuccess = true)
      (hout : String.fromUTF8? (process place).behaviour.stdout = some out)
      (htree : Json.read out = some tree) :
    Verdict o start process moment (.ok tree)

/-- If a process that fails says so in text, there is one answer that it deserves. -/
theorem Verdict.unique {start : Except IoError Location} {process : Location → Process}
    {moment : Nat} {answer other : Except OracleError Json}
    (h : Verdict o start process moment answer) (hother : Verdict o start process moment other)
    (htext : ∀ place, start = .ok place →
      (String.fromUTF8? (process place).behaviour.stderr).isSome) : answer = other := by
  cases h with
  | unstarted hstart => cases hother <;> simp_all
  | lost hstart hover hlost => cases hother <;> simp_all [Ending.loss?, Ending.isSuccess]
  | late hstart hlate => cases hother <;> simp_all
  | rejected hstart hover hknown hfailed hsaid =>
    obtain ⟨err, herr⟩ := Option.isSome_iff_exists.mp (htext _ hstart)
    cases hother <;> simp_all [Ending.loss?]
  | malformed hstart hover hsuccess hdocument => cases hother <;> simp_all [Ending.isSuccess]
  | parsed hstart hover hsuccess hout htree => cases hother <;> simp_all [Ending.isSuccess]

/-- The process that the program at a place becomes when it is asked for the tree of a file. -/
def asked (programs : FileTree → Location → List String → Process) (t : FileTree) (file : Path) :
    Location → Process :=
  fun place => programs t place (parseArguments file)

theorem run_watched (programs : FileTree → Location → List String → Process) (w : Watch)
    (limit : Span) (clock : Nat) (t : FileTree) (place : Location) (file : Path) :
    (Machine.watched programs w limit clock).run t place (parseArguments file) =
      (asked programs t file place).seen w limit := rfl

theorem readable_seen {p : Process} {w : Watch} {limit : Span} :
    (p.seen w limit).Readable ↔ p.behaviour.Readable := by
  rw [Behaviour.Readable, Process.seen, Behaviour.stdout_withEnding, Behaviour.stderr_withEnding,
    Behaviour.Readable]

theorem parse_of_run_eq_error {e : OracleError}
    (h : o.run m t (parseArguments file) = .error e) : o.parse m t file = .error e := by
  rw [parse, h]

section Watched

variable {programs : FileTree → Location → List String → Process} {w : Watch} {clock last : Nat}
  (hstart : startable t o.binary = .ok place)

include hstart

theorem parse_of_overflows (h : Overflows clock o.timeout) :
    o.parse (.watched programs w o.timeout clock) t file = .error .clockOverflow :=
  parse_of_run_eq_error (run_of_overflows hstart h)

variable (hclock : ¬ Overflows clock o.timeout) (hpos : o.timeout.milliseconds ≠ 0)

include hclock hpos

/-- A process that ends with readable streams is judged by its exit status. -/
theorem run_of_seen (hends : ((asked programs t file place).seen w o.timeout).ending ≠ .hangs)
    (hloss : ((asked programs t file place).seen w o.timeout).ending.loss? = none)
    (hout : String.fromUTF8? (asked programs t file place).behaviour.stdout = some out)
    (herr : String.fromUTF8? (asked programs t file place).behaviour.stderr = some err) :
    o.run (.watched programs w o.timeout clock) t (parseArguments file) =
      if ((asked programs t file place).seen w o.timeout).ending.isSuccess then .ok out
      else .error (.rejected ((asked programs t file place).seen w o.timeout).ending.text
        (Text.trim err)) := by
  rw [← run_watched programs w o.timeout clock] at hends hloss ⊢
  refine run_of_readable hstart hclock hpos hends hloss ?_ ?_
  · rw [run_watched, Process.seen, Behaviour.stdout_withEnding]
    exact hout
  · rw [run_watched, Process.seen, Behaviour.stderr_withEnding]
    exact herr

variable (hlast : w.IsLast (w.deadline o.timeout) last)

include hlast

/-- A process over in time that wrote bytes that are no text is reported as not run. -/
theorem parse_of_garbled (h : (asked programs t file place).Garbled (w.look last)) :
    o.parse (.watched programs w o.timeout clock) t file =
      .error (.notRun o.binary IoError.invalidText.message) := by
  obtain ⟨hover, hknown, htext⟩ := h
  have hending := Process.ending_seen (p := asked programs t file place) hlast
  rw [if_pos hover] at hending
  refine parse_of_run_eq_error (run_of_not_readable hstart hclock hpos ?_ ?_ ?_) <;>
    rw [run_watched]
  · rw [hending]
    exact hover.1
  · rw [hending]
    exact hknown
  · rw [readable_seen]
    exact htext

/-- A process that is known to have ended, and wrote text, gets the answer that it deserves. -/
theorem verdict_of_readable (hover : (asked programs t file place).IsOver (w.look last))
    (hknown : (asked programs t file place).behaviour.ending.loss? = none)
    (htext : (asked programs t file place).behaviour.Readable) :
    Verdict o (startable t o.binary) (asked programs t file) (w.look last)
      (o.parse (.watched programs w o.timeout clock) t file) := by
  obtain ⟨out, hout⟩ := Option.isSome_iff_exists.mp htext.1
  obtain ⟨err, herr⟩ := Option.isSome_iff_exists.mp htext.2
  have hending := Process.ending_seen (p := asked programs t file place) hlast
  rw [if_pos hover] at hending
  have hrun := run_of_seen hstart hclock hpos (hending ▸ hover.1) (hending ▸ hknown) hout herr
  rw [hending] at hrun
  -- The exit status comes first, and the document is read only after a success.
  cases hsuccess : (asked programs t file place).behaviour.ending.isSuccess with
  | false =>
    rw [hsuccess, if_neg Bool.false_ne_true] at hrun
    rw [parse_of_run_eq_error hrun]
    refine .rejected hstart hover hknown hsuccess fun other hother => ?_
    rw [Option.some_inj.mp (herr.symm.trans hother)]
  | true =>
    rw [hsuccess, if_pos rfl] at hrun
    rw [parse, hrun]
    dsimp only
    cases htree : Json.read out with
    | some tree => exact .parsed hstart hover hsuccess hout htree
    | none =>
      refine .malformed hstart hover hsuccess fun other hother => ?_
      rw [← Option.some_inj.mp (hout.symm.trans hother), htree]

/-- Unless the output is in the way, the answer is the one that the process deserves. -/
theorem verdict_of_started (h : ¬ (asked programs t file place).Garbled (w.look last)) :
    Verdict o (startable t o.binary) (asked programs t file) (w.look last)
      (o.parse (.watched programs w o.timeout clock) t file) := by
  have hending := Process.ending_seen (p := asked programs t file place) hlast
  -- A process that is not over at the last look is late.
  by_cases hover : (asked programs t file place).IsOver (w.look last)
  · cases hloss : (asked programs t file place).behaviour.ending.loss? with
    | some reason =>
      have hlost := Ending.eq_lost_of_loss? hloss
      rw [if_pos hover, hlost, ← run_watched programs w o.timeout clock] at hending
      rw [parse_of_run_eq_error (run_of_lost hstart hclock hpos hending)]
      exact .lost hstart hover hlost
    | none =>
      have htext : (asked programs t file place).behaviour.Readable :=
        Classical.not_not.mp fun htext => h ⟨hover, hloss, htext⟩
      exact verdict_of_readable hstart hclock hpos hlast hover hloss htext
  · rw [if_neg hover, ← run_watched programs w o.timeout clock] at hending
    rw [parse_of_run_eq_error (run_of_hangs hstart hclock hending)]
    exact .late hstart hover

end Watched

/-- No verdict is that the run breaks off. -/
theorem not_verdict_clockOverflow {start : Except IoError Location} {process : Location → Process}
    {moment : Nat} : ¬ Verdict o start process moment (.error .clockOverflow) := nofun

/-- A process that is known to have ended has been run. -/
theorem not_verdict_notRun {start : Except IoError Location} {process : Location → Process}
    {moment : Nat} {binary : Path} {reason : String} (hstart : start = .ok place)
    (hknown : (process place).behaviour.ending.loss? = none) :
    ¬ Verdict o start process moment (.error (.notRun binary reason)) := by
  subst hstart
  intro hverdict
  cases hverdict with
  | unstarted hrefused => cases hrefused
  | lost hsame hover hlost =>
    cases hsame
    rw [hlost] at hknown
    cases hknown

/-- **What becomes of a question, for all times that settings can give, all programs and all ways of
waiting**: there is a last look, the first one after which the clock shows the deadline. The answer is
the one that the process deserves if and only if the process could not be started, or the deadline is
on the clock and a process that was over by the last look wrote nothing but text. Otherwise the run
breaks off, or the process counts as one that could not be run. -/
theorem verdict_parse_iff {a : Arguments} {settings : CensusSettings} {report : ReportSettings}
    (h : a.validate = .ok (settings, report)) (o : ProcessOracle) (ho : o.timeout = settings.timeout)
    (t : FileTree) (file : Path) (programs : FileTree → Location → List String → Process) (w : Watch)
    (clock : Nat) :
    ∃ last, w.IsLast (w.deadline o.timeout) last ∧
      (Verdict o (startable t o.binary) (asked programs t file) (w.look last)
        (o.parse (.watched programs w o.timeout clock) t file) ↔
        ∀ place, startable t o.binary = .ok place → ¬ Overflows clock o.timeout ∧
          ¬ (asked programs t file place).Garbled (w.look last)) ∧
      ∀ place, startable t o.binary = .ok place →
        (Overflows clock o.timeout →
          o.parse (.watched programs w o.timeout clock) t file = .error .clockOverflow) ∧
        (¬ Overflows clock o.timeout → (asked programs t file place).Garbled (w.look last) →
          o.parse (.watched programs w o.timeout clock) t file =
            .error (.notRun o.binary IoError.invalidText.message)) := by
  obtain ⟨seconds, hseconds, htimeout⟩ := Arguments.timeout_of_validate h
  have hpos : o.timeout.milliseconds ≠ 0 := by
    rw [ho, htimeout]
    show seconds * 1000 ≠ 0
    omega
  obtain ⟨last, hlast⟩ := w.exists_isLast (w.deadline o.timeout)
  refine ⟨last, hlast, ⟨fun hverdict place hstart => ⟨fun hover => ?_, fun hgarbled => ?_⟩, ?_⟩,
    fun place hstart => ⟨parse_of_overflows hstart,
      fun hclock => parse_of_garbled hstart hclock hpos hlast⟩⟩
  · rw [parse_of_overflows hstart hover] at hverdict
    -- No verdict speaks of the clock.
    exact not_verdict_clockOverflow hverdict
  · by_cases hclock : Overflows clock o.timeout
    · rw [parse_of_overflows hstart hclock] at hverdict
      exact not_verdict_clockOverflow hverdict
    · rw [parse_of_garbled hstart hclock hpos hlast hgarbled] at hverdict
      exact not_verdict_notRun hstart hgarbled.2.1 hverdict
  · intro hsound
    cases hstart : startable t o.binary with
    | error cause =>
      have hrun : o.run (.watched programs w o.timeout clock) t (parseArguments file) =
          .error (.notRun o.binary cause.message) := by
        rw [run, hstart]
      rw [parse_of_run_eq_error hrun]
      exact .unstarted rfl
    | ok place =>
      obtain ⟨hclock, hgarbled⟩ := hsound place hstart
      have hverdict := verdict_of_started hstart hclock hpos hlast hgarbled
      rwa [hstart] at hverdict

/-- The arguments for a parser that has so many seconds. -/
def secondsArguments (seconds : Nat) : Arguments :=
  { Arguments.none with
    essenceDirectory := some ⟨"/e"⟩
    conjureBinary := some ⟨"/conjure"⟩
    oracleTimeout := some seconds
    output := some ⟨"/report"⟩ }

/-- A tree with that parser. -/
def parserTree : FileTree :=
  ⟨.directory [("conjure", .file "".toUTF8 0o755)], [], List.forall_mem_nil _⟩

/-- A parser that writes a byte that is no text, explains itself, and exits with one. -/
def garbling (_ : FileTree) (_ : Location) (_ : List String) : Process :=
  ⟨⟨⟨#[255]⟩, "syntax error".toUTF8, .exits 1⟩, 0⟩

/-- Looking again as soon as it may be. -/
def promptWatch : Watch where
  begins := 0
  look i := i * pollInterval.nanoseconds
  read i := i * pollInterval.nanoseconds
  begins_le_look := Nat.zero_le _
  look_le_read _ := Nat.le_refl _
  read_add_le_look i := by rw [Nat.succ_mul]

/-- A parser that rejects a specification counts as one that could not be run, and one that has as much
time as there can be breaks off the run. -/
theorem verdict_parse_garbling :
    (∃ settings report, (secondsArguments 60).validate = .ok (settings, report) ∧
      (mk ⟨"/conjure"⟩ settings.timeout).parse (.watched garbling promptWatch settings.timeout 0)
        parserTree ⟨"/e/x.essence"⟩ =
          .error (.notRun ⟨"/conjure"⟩ "stream did not contain valid UTF-8")) ∧
    ∃ settings report, (secondsArguments 18446744073709551615).validate = .ok (settings, report) ∧
      (mk ⟨"/conjure"⟩ settings.timeout).parse (.watched garbling promptWatch settings.timeout 0)
        parserTree ⟨"/e/x.essence"⟩ = .error .clockOverflow := by
  have hstart : startable parserTree ⟨"/conjure"⟩ = .ok ["conjure"] := by decide +kernel
  refine ⟨⟨_, _, rfl, ?_⟩, ⟨_, _, rfl, ?_⟩⟩
  · have hclock : ¬ Overflows 0 (.ofSeconds 60) := by
      unfold Overflows
      decide
    have hgarbled (moment : Nat) :
        (asked garbling parserTree ⟨"/e/x.essence"⟩ ["conjure"]).Garbled moment := by
      refine ⟨⟨nofun, Nat.zero_le moment⟩, rfl, fun htext => ?_⟩
      have hout : String.fromUTF8? ⟨#[255]⟩ = none := by decide +kernel
      exact Option.isSome_iff_ne_none.mp htext.1 hout
    obtain ⟨_, _, _, hexcept⟩ := verdict_parse_iff (a := secondsArguments 60) rfl
      ⟨⟨"/conjure"⟩, .ofSeconds 60⟩ rfl parserTree ⟨"/e/x.essence"⟩ garbling promptWatch 0
    exact (hexcept _ hstart).2 hclock (hgarbled _)
  · have hclock : Overflows 0 (.ofSeconds 18446744073709551615) := by
      unfold Overflows
      decide
    obtain ⟨_, _, _, hexcept⟩ := verdict_parse_iff (a := secondsArguments 18446744073709551615) rfl
      ⟨⟨"/conjure"⟩, .ofSeconds 18446744073709551615⟩ rfl parserTree ⟨"/e/x.essence"⟩ garbling
      promptWatch 0
    exact (hexcept _ hstart).1 hclock

end ProcessOracle

end KeywordCensus

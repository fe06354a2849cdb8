import Kotoba.Command.Repl
import Kotoba.Proofs.Machine.Asking

/-! How the interactive mode takes lines from an input that ends. No line is lost or repeated,
whether it answers a prompt or an entry that is being evaluated reads it, and no line is read for
an entry that is complete without it. -/
namespace Kotoba.Command.Repl

open Console (Fed Shared Taken)
open Machine (Moment)
open Session (Reading)

/-- A moment of the interactive mode, with the machine at that moment. -/
inductive Event where
  /-- A line was typed after a prompt; there is none if the input has ended. -/
  | prompted (line : Option Bytes) (machine : Machine)
  /-- An entry was complete. -/
  | entered (entry : Bytes) (machine : Machine)
  /-- A moment of the evaluation of an entry. -/
  | evaluates (moment : Moment)

namespace Event

/-- The input at a moment, with what was just taken from it. -/
def sight : Event → Option Taken × Console.Input
  | prompted line m => (some (.typed line), m.input)
  | entered _ m => (none, m.input)
  | evaluates moment => moment.sight

/-- The line that was just taken, as its reader sees it. -/
def taken? (event : Event) : Option Taken := event.sight.1

/-- What is still to be read. -/
def unread (event : Event) : Bytes := event.sight.2.pending

/-- The entry that is complete. -/
def entry? : Event → Option Bytes
  | entered entry _ => some entry
  | _ => none

end Event

/-- The prompts while `readEntry` reads. -/
def typing (r : Reading) : (fuel : Nat) → (typed : Bytes) → State → List Event
  | 0, _, _ => []
  | fuel + 1, typed, s =>
    match (s.say (if typed.isEmpty then "nyaa> " else "  ... ")).takeLine with
    | (none, s) => [.prompted none s.machine]
    | (some line, s) =>
      let typed := if typed.isEmpty then line else typed ++ "\n" ++ line
      .prompted (some line) s.machine ::
        if typed.trimBlank == exitWord then []
        else match Syntax.parseEntry r.limits typed with
          | .error d parse =>
            if d.isIncomplete then typing r fuel typed (s.noteParse r parse) else []
          | _ => []

/-- What happens during `loop`. An entry whose evaluation never ends is the last. -/
def history (rounds : Nat) (r : Reading) : (fuel : Nat) → State → List Event
  | 0, _ => []
  | fuel + 1, s =>
    typing r (s.machine.input.pending.size + 1) .empty s ++
      match readEntry r (s.machine.input.pending.size + 1) .empty s with
      | (none, _) => []
      | (some entry, s) =>
        .entered entry s.machine ::
          if entry.trimBlank.isEmpty then history rounds r fuel s
          else if entry.trimBlank == exitWord then []
          else (Session.record rounds r entry s.machine).map .evaluates ++
            match Session.enter rounds r entry s.machine with
            | (.endless, _) => []
            | _ => history rounds r fuel (evalEntry rounds r entry s)

/-- What happens while the interactive mode runs. -/
def happens (rounds : Nat) (r : Reading) (machine : Machine) : List Event :=
  history rounds r (machine.input.pending.size + 1) { machine }

/-- Whether a text is only the beginning of an entry. -/
def isIncomplete (limits : Token.Limits) (text : Bytes) : Bool :=
  match Syntax.parseEntry limits text with
  | .error d _ => d.isIncomplete
  | _ => false

/-- Lines as one text. -/
def together (lines : List Bytes) : Bytes := Bytes.join "\n" lines

/-- The lines typed for the next entry, and whether the input has ended. -/
structure Draft where
  lines : List Bytes := []
  ended : Bool := false
deriving BEq, ReflBEq, LawfulBEq

/-- The draft after one more event. -/
def Event.draft (d : Draft) : Event → Draft
  | prompted (some line) _ => { d with lines := d.lines ++ [line] }
  | prompted none _ => { d with ended := true }
  | entered .. => {}
  | evaluates _ => d

/-- The draft after everything in `past`. -/
def draft (past : List Event) : Draft := past.foldl Event.draft {}

/-- Whether an entry is the draft, and it could not have been complete before its last line. The
exit word is complete whatever comes of parsing it. -/
structure Draft.Makes (limits : Token.Limits) (d : Draft) (entry : Bytes) : Prop where
  ne_nil : d.lines ≠ []
  eq_together : entry = together d.lines
  minimal : ∀ n, 0 < n → n < d.lines.length → isIncomplete limits (together (d.lines.take n))
  complete : d.ended = false → entry.trimBlank ≠ exitWord → ¬ isIncomplete limits entry

/-- How the interactive mode comes to an end with a machine as in `final`. -/
inductive Closed (rounds : Nat) (r : Reading) (final : State) : List Event → Prop
  /-- The input has ended. -/
  | ended {past : List Event} {m : Machine} (hm : m.input.pending = .empty)
    (hfinal : final.machine.input = m.input) : Closed rounds r final (past ++ [.prompted none m])
  /-- The exit word was entered. -/
  | left {past : List Event} {entry : Bytes} {m : Machine} (hentry : entry.trimBlank = exitWord)
    (hfinal : final.machine.input = m.input) : Closed rounds r final (past ++ [.entered entry m])
  /-- The evaluation of an entry does not end. -/
  | endless {past : List Event} {entry : Bytes} {m : Machine}
    (hentry : (Session.enter rounds r entry m).1 = .endless) :
    Closed rounds r final
      (past ++ .entered entry m :: (Session.record rounds r entry m).map .evaluates)

theorem Closed.after {rounds : Nat} {r : Reading} {final : State} {events : List Event}
    (h : Closed rounds r final events) (before : List Event) :
    Closed rounds r final (before ++ events) := by
  cases h with
  | ended hm hfinal =>
    rw [← List.append_assoc]
    exact .ended hm hfinal
  | left hentry hfinal =>
    rw [← List.append_assoc]
    exact .left hentry hfinal
  | endless hentry =>
    rw [← List.append_assoc]
    exact .endless hentry

/-! ### Steps that leave the input alone -/

namespace State

@[simp] theorem say_input (s : State) (text : Bytes) :
    (s.say text).machine.input = s.machine.input := by
  unfold say
  split <;> rfl

@[simp] theorem complain_machine (s : State) (d : Diagnostic) (entry : Bytes) :
    (s.complain d entry).machine = s.machine := rfl

@[simp] theorem noteParse_input (s : State) (r : Reading) (parse : Syntax.State) :
    (s.noteParse r parse).machine.input = s.machine.input := rfl

/-- A prompt is answered by what is left of a whole line without its end. -/
theorem takeLine_cases {s : State} (h : s.machine.input.failure = none) :
    ∃ taken line s', s.takeLine = (line, s') ∧ (Taken.typed line).IsOf taken ∧
      s.machine.input.takeLine = (.ok taken, s'.machine.input) ∧
      s'.machine.input.failure = none ∧
      (line = none → taken = .empty ∧ s'.machine.input.pending = .empty) ∧
      (line.isSome → taken.isEmpty = false) := by
  obtain ⟨taken, j, htake, hj, hcases⟩ := Console.Input.takeLine_cases h
  refine ⟨taken, _, { s with machine := { s.machine with input := j } }, ?_, rfl, htake, hj, ?_⟩
  · unfold takeLine
    rw [htake]
    dsimp only
    split <;> rfl
  · obtain ⟨hne, -⟩ | ⟨rfl, hempty, rfl⟩ := hcases
    · simp [hne]
    · exact ⟨fun _ => ⟨rfl, Bytes.eq_empty hempty⟩, fun h => nomatch h⟩

end State

theorem evalEntry_input (rounds : Nat) (r : Reading) (entry : Bytes) (s : State) :
    (evalEntry rounds r entry s).machine.input =
      (Session.enter rounds r entry s.machine).2.input := by
  unfold evalEntry
  split <;> rename_i h <;> simp [h]

/-! ### Reading an entry -/

theorem together_append_singleton (lines : List Bytes) (line : Bytes) :
    together (lines ++ [line]) =
      if lines.isEmpty then line else together lines ++ "\n" ++ line := by
  cases lines with
  | nil => rfl
  | cons first rest => simp [together, Bytes.join]

/-- An entry may be empty. -/
theorem isIncomplete_empty (limits : Token.Limits) : isIncomplete limits .empty = false := rfl

theorem isEmpty_of_isIncomplete {limits : Token.Limits} {text : Bytes}
    (h : isIncomplete limits text) : text.isEmpty = false := by
  refine Bytes.isEmpty_eq_false fun hnil => ?_
  rw [Bytes.eq_empty hnil, isIncomplete_empty] at h
  cases h

/-- Lines that an entry may go on after. -/
def Open (limits : Token.Limits) (lines : List Bytes) : Prop :=
  ∀ n, 0 < n → n ≤ lines.length → isIncomplete limits (together (lines.take n))

theorem Open.nil (limits : Token.Limits) : Open limits [] := by
  intro n hpos hn
  rw [List.length_nil] at hn
  omega

theorem Open.isEmpty_together {limits : Token.Limits} {lines : List Bytes} (h : Open limits lines) :
    (together lines).isEmpty = lines.isEmpty := by
  cases lines with
  | nil => rfl
  | cons first rest =>
    have hall := h (first :: rest).length (Nat.succ_pos _) (Nat.le_refl _)
    rw [List.take_length] at hall
    rw [isEmpty_of_isIncomplete hall]
    rfl

theorem Open.append {limits : Token.Limits} {lines : List Bytes} {line : Bytes}
    (h : Open limits lines) (hline : isIncomplete limits (together (lines ++ [line]))) :
    Open limits (lines ++ [line]) := by
  intro n hpos hn
  by_cases hle : n ≤ lines.length
  · rw [List.take_append_of_le_length hle]
    exact h n hpos hle
  · rw [List.length_append, List.length_singleton] at hn
    rw [List.take_of_length_le (by simp; omega)]
    exact hline

/-- How an entry is read that begins with some lines: what happens, the entry if there is one, and
the input after it. -/
inductive Reads (limits : Token.Limits) :
    List Bytes → Console.Input → List Event → Option Bytes → Console.Input → Prop
  /-- The input has ended. -/
  | ended {lines : List Bytes} {i : Console.Input} {m : Machine}
    (hline : i.takeLine = (.ok .empty, m.input)) (hempty : m.input.pending = .empty) :
    Reads limits lines i [.prompted none m]
      (if lines.isEmpty then none else some (together lines)) m.input
  /-- A line completes the entry. -/
  | last {lines : List Bytes} {i : Console.Input} {whole line : Bytes} {m : Machine}
    (hline : i.takeLine = (.ok whole, m.input)) (hwhole : whole.isEmpty = false)
    (htaken : (Taken.typed (some line)).IsOf whole)
    (hlast : (together (lines ++ [line])).trimBlank = exitWord ∨
      ¬ isIncomplete limits (together (lines ++ [line]))) :
    Reads limits lines i [.prompted (some line) m] (some (together (lines ++ [line]))) m.input
  /-- After a line the entry goes on. -/
  | more {lines : List Bytes} {i j : Console.Input} {whole line : Bytes} {m : Machine}
    {events : List Event} {entry : Option Bytes}
    (hline : i.takeLine = (.ok whole, m.input)) (hwhole : whole.isEmpty = false)
    (htaken : (Taken.typed (some line)).IsOf whole)
    (hmore : isIncomplete limits (together (lines ++ [line])))
    (h : Reads limits (lines ++ [line]) m.input events entry j) :
    Reads limits lines i (.prompted (some line) m :: events) entry j

namespace Reads

variable {limits : Token.Limits} {lines : List Bytes} {i j : Console.Input} {events : List Event}
  {entry : Option Bytes}

theorem fed (h : Reads limits lines i events entry j) : Fed i (events.map Event.sight) j := by
  induction h with
  | ended hline _ => exact .takes hline rfl .done
  | last hline _ htaken _ => exact .takes hline htaken .done
  | more hline _ htaken _ _ ih => exact .takes hline htaken ih

/-- An entry takes a line at least. -/
theorem size_lt {text : Bytes} (h : Reads limits lines i events entry j) (hlines : lines = [])
    (hentry : entry = some text) : j.pending.size < i.pending.size := by
  cases h with
  | ended _ _ =>
    subst hlines
    cases hentry
  | last hline hwhole _ _ => exact Console.Input.takeLine_lt hline hwhole
  | more hline hwhole _ _ h =>
    have hlt := Console.Input.takeLine_lt hline hwhole
    have hle := h.fed.size_le
    omega

/-- An input that gives no entry has ended. -/
theorem ended_of_none (h : Reads limits lines i events entry j) (hentry : entry = none) :
    ∃ past m, events = past ++ [.prompted none m] ∧ m.input = j ∧ j.pending = .empty := by
  induction h with
  | ended _ hempty => exact ⟨[], _, rfl, rfl, hempty⟩
  | last _ _ _ _ => cases hentry
  | more _ _ _ _ _ ih =>
    obtain ⟨past, m, rfl, hm, hempty⟩ := ih hentry
    exact ⟨_ :: past, m, rfl, hm, hempty⟩

/-- An entry is what was typed for it. -/
theorem makes {text : Bytes} (h : Reads limits lines i events entry j)
    (hopen : Open limits lines) (hentry : entry = some text) :
    (events.foldl Event.draft { lines }).Makes limits text := by
  induction h with
  | @ended lines i m hline hempty =>
    by_cases hnil : lines = []
    · subst hnil
      cases hentry
    · rw [if_neg (by simpa using hnil)] at hentry
      cases hentry
      exact ⟨hnil, rfl, fun n hpos hn => hopen n hpos (Nat.le_of_lt hn), fun h => nomatch h⟩
  | @last lines i whole line m hline hwhole htaken hlast =>
    cases hentry
    refine ⟨by simp [Event.draft], rfl, ?_, ?_⟩
    · intro n hpos hn
      simp only [List.foldl, Event.draft, List.length_append, List.length_singleton] at hn ⊢
      rw [List.take_append_of_le_length (by omega)]
      exact hopen n hpos (by omega)
    · intro _ hexit
      exact hlast.resolve_left hexit
  | more _ _ _ hmore _ ih => exact ih (hopen.append hmore) hentry

end Reads

/-- Reading an entry ends if there is fuel for every byte. -/
theorem readEntry_reads (r : Reading) {fuel : Nat} {lines : List Bytes} {s : State}
    (hs : s.machine.input.failure = none) (hfuel : s.machine.input.pending.size < fuel)
    (hopen : Open r.limits lines) :
    Reads r.limits lines s.machine.input (typing r fuel (together lines) s)
      (readEntry r fuel (together lines) s).1
      (readEntry r fuel (together lines) s).2.machine.input := by
  induction fuel generalizing lines s with
  | zero => omega
  | succ fuel ih =>
    rw [typing, readEntry, hopen.isEmpty_together]
    generalize (if lines.isEmpty then ("nyaa> " : Bytes) else "  ... ") = prompt
    obtain ⟨taken, line, s', htake, htaken, hline, hs', hnone, hsome⟩ :=
      State.takeLine_cases (s := s.say prompt) (by rw [State.say_input, hs])
    rw [State.say_input] at hline
    rw [htake]
    cases line with
    | none =>
      obtain ⟨rfl, hempty⟩ := hnone rfl
      simp only [State.inputFailed, hs', Option.isSome_none, Bool.or_false]
      exact .ended hline hempty
    | some line =>
      have hne := hsome rfl
      have hlt := Console.Input.takeLine_lt hline hne
      dsimp only
      rw [← together_append_singleton]
      by_cases hexit : (together (lines ++ [line])).trimBlank = exitWord
      · rw [if_pos (beq_iff_eq.mpr hexit), if_pos (beq_iff_eq.mpr hexit)]
        exact .last hline hne htaken (.inl hexit)
      · rw [if_neg (by simpa using hexit), if_neg (by simpa using hexit)]
        cases hparse : Syntax.parseEntry r.limits (together (lines ++ [line])) with
        | ok node parse => exact .last hline hne htaken (.inr (by simp [isIncomplete, hparse]))
        | exhausted => exact .last hline hne htaken (.inr (by simp [isIncomplete, hparse]))
        | error d parse =>
          have hd : isIncomplete r.limits (together (lines ++ [line])) = d.isIncomplete := by
            rw [isIncomplete, hparse]
          dsimp only
          rw [← hd]
          by_cases hmore : isIncomplete r.limits (together (lines ++ [line]))
          · rw [if_pos hmore, if_pos hmore]
            have hnext := ih (s := s'.noteParse r parse) hs' (by rw [State.noteParse_input]; omega)
              (hopen.append hmore)
            exact .more hline hne htaken hmore hnext
          · rw [if_neg hmore, if_neg hmore]
            exact .last hline hne htaken (.inr hmore)

/-! ### Reading and evaluating -/

/-- How entries are read and evaluated, with what happens, until the mode comes to an end. -/
inductive Runs (rounds : Nat) (r : Reading) : State → List Event → State → Prop
  /-- There is no entry. -/
  | ended {s s' : State} {events : List Event}
    (hread : Reads r.limits [] s.machine.input events none s'.machine.input) :
    Runs rounds r s events s'
  /-- The exit word. -/
  | left {s s' : State} {events : List Event} {entry : Bytes}
    (hread : Reads r.limits [] s.machine.input events (some entry) s'.machine.input)
    (hentry : entry.trimBlank = exitWord) :
    Runs rounds r s (events ++ [.entered entry s'.machine]) s'
  /-- A blank entry. -/
  | blank {s s₁ s' : State} {events more : List Event} {entry : Bytes}
    (hread : Reads r.limits [] s.machine.input events (some entry) s₁.machine.input)
    (h : Runs rounds r s₁ more s') :
    Runs rounds r s (events ++ .entered entry s₁.machine :: more) s'
  /-- An entry whose evaluation does not end. -/
  | endless {s s₁ s' : State} {events : List Event} {entry : Bytes}
    (hread : Reads r.limits [] s.machine.input events (some entry) s₁.machine.input)
    (hentry : (Session.enter rounds r entry s₁.machine).1 = .endless) :
    Runs rounds r s (events ++ .entered entry s₁.machine ::
      (Session.record rounds r entry s₁.machine).map .evaluates) s'
  /-- Any other entry. -/
  | evaluated {s s₁ s' : State} {events more : List Event} {entry : Bytes}
    (hread : Reads r.limits [] s.machine.input events (some entry) s₁.machine.input)
    (hentry : (Session.enter rounds r entry s₁.machine).1 ≠ .endless)
    (h : Runs rounds r (evalEntry rounds r entry s₁) more s') :
    Runs rounds r s (events ++ .entered entry s₁.machine ::
      ((Session.record rounds r entry s₁.machine).map .evaluates ++ more)) s'

/-- The input after an evaluation that ends. -/
theorem evalEntry_fed (rounds : Nat) (r : Reading) (entry : Bytes) {s : State}
    (hs : s.machine.input.failure = none)
    (hentry : (Session.enter rounds r entry s.machine).1 ≠ .endless) :
    Fed s.machine.input (((Session.record rounds r entry s.machine).map .evaluates).map
      Event.sight) (evalEntry rounds r entry s).machine.input := by
  obtain ⟨rest, hfed, ⟨m', hendless⟩ | hrest⟩ := Session.enter_fed rounds r entry hs
  · rw [hendless] at hentry
    exact absurd rfl hentry
  · rw [evalEntry_input, hrest, List.map_map]
    exact hfed

/-- The mode comes to an end if there is fuel for every byte. -/
theorem loop_runs (rounds : Nat) (r : Reading) {fuel : Nat} {s : State}
    (hs : s.machine.input.failure = none) (hfuel : s.machine.input.pending.size < fuel) :
    Runs rounds r s (history rounds r fuel s) (loop rounds r fuel s) := by
  induction fuel generalizing s with
  | zero => omega
  | succ fuel ih =>
    have hread : Reads r.limits [] _ (typing r _ .empty s) (readEntry r _ .empty s).1
        (readEntry r _ .empty s).2.machine.input :=
      readEntry_reads r hs (Nat.lt_succ_self _) (.nil r.limits)
    rw [history, loop]
    rcases hfound : readEntry r (s.machine.input.pending.size + 1) .empty s with ⟨found, s₁⟩
    rw [hfound] at hread
    cases found with
    | none =>
      rw [List.append_nil]
      exact .ended (by rw [State.say_input]; exact hread)
    | some entry =>
      dsimp only at hread ⊢
      have hlt := hread.size_lt rfl rfl
      have hs₁ := hread.fed.failure_eq hs
      by_cases hblank : entry.trimBlank.isEmpty
      · rw [if_pos hblank, if_pos hblank]
        exact .blank hread (ih hs₁ (by omega))
      · rw [if_neg hblank, if_neg hblank]
        by_cases hexit : entry.trimBlank == exitWord
        · rw [if_pos hexit, if_pos hexit]
          exact .left hread (eq_of_beq hexit)
        · rw [if_neg hexit, if_neg hexit]
          rcases hanswer : Session.enter rounds r entry s₁.machine with ⟨answer, m'⟩
          have hfst : (Session.enter rounds r entry s₁.machine).1 = answer := by rw [hanswer]
          have hnext (hentry : (Session.enter rounds r entry s₁.machine).1 ≠ .endless) :
              Runs rounds r (evalEntry rounds r entry s₁)
                (history rounds r fuel (evalEntry rounds r entry s₁))
                (loop rounds r fuel (evalEntry rounds r entry s₁)) := by
            have hfed := evalEntry_fed rounds r entry hs₁ hentry
            have hle := hfed.size_le
            exact ih (hfed.failure_eq hs₁) (by omega)
          cases answer with
          | endless =>
            rw [List.append_nil]
            exact .endless hread hfst
          | unparsed _ | failed _ | value _ =>
            have hentry : (Session.enter rounds r entry s₁.machine).1 ≠ .endless := by
              rw [hfst]
              exact fun h => nomatch h
            exact .evaluated hread hentry (hnext hentry)

/-- Whether every entry is made of what was typed for it, when the draft was `d` before. -/
def Drafted (limits : Token.Limits) : (d : Draft) → List Event → Prop
  | _, [] => True
  | d, event :: rest =>
    (∀ entry, event.entry? = some entry → d.Makes limits entry) ∧
      Drafted limits (event.draft d) rest

theorem drafted_append {limits : Token.Limits} {d : Draft} {events more : List Event} :
    Drafted limits d (events ++ more) ↔
      Drafted limits d events ∧ Drafted limits (events.foldl Event.draft d) more := by
  induction events generalizing d with
  | nil => simp [Drafted]
  | cons event rest ih => simp [Drafted, ih, and_assoc]

/-- Nothing is typed for an entry while another is evaluated. -/
theorem drafted_evaluates_append {limits : Token.Limits} {d : Draft} {record : List Moment}
    {more : List Event} :
    Drafted limits d (record.map .evaluates ++ more) ↔ Drafted limits d more := by
  induction record with
  | nil => rfl
  | cons moment record ih => simp [Drafted, Event.draft, Event.entry?, ih]

theorem Reads.drafted {limits : Token.Limits} {lines : List Bytes} {i j : Console.Input}
    {events : List Event} {entry : Option Bytes} (h : Reads limits lines i events entry j)
    (d : Draft) : Drafted limits d events := by
  induction h generalizing d with
  | ended _ _ => simp [Drafted, Event.entry?]
  | last _ _ _ _ => simp [Drafted, Event.entry?]
  | more _ _ _ _ _ ih => exact ⟨fun _ h => (nomatch h), ih _⟩

theorem Reads.drafted_append_entered {limits : Token.Limits} {i j : Console.Input}
    {events more : List Event} {entry : Bytes} {m : Machine}
    (h : Reads limits [] i events (some entry) j) (hmore : Drafted limits {} more) :
    Drafted limits {} (events ++ .entered entry m :: more) := by
  have hmakes := h.makes (.nil limits) rfl
  refine drafted_append.mpr ⟨h.drafted _, ⟨fun text heq => ?_, hmore⟩⟩
  cases heq
  exact hmakes

namespace Runs

variable {rounds : Nat} {r : Reading} {s s' : State} {events : List Event}

/-- What is taken from the input. -/
theorem fed (h : Runs rounds r s events s') (hs : s.machine.input.failure = none) :
    ∃ rest, Fed s.machine.input (events.map Event.sight) rest := by
  induction h with
  | ended hread => exact ⟨_, hread.fed⟩
  | left hread _ =>
    rw [List.map_append]
    exact ⟨_, hread.fed.append (.idle .done)⟩
  | blank hread _ ih =>
    obtain ⟨rest, hmore⟩ := ih (hread.fed.failure_eq hs)
    rw [List.map_append]
    exact ⟨rest, hread.fed.append (.idle hmore)⟩
  | endless hread _ =>
    obtain ⟨rest, hfed, -⟩ := Session.enter_fed rounds r _ (hread.fed.failure_eq hs)
    rw [List.map_append, List.map_cons, List.map_map]
    exact ⟨rest, hread.fed.append (.idle hfed)⟩
  | evaluated hread hentry _ ih =>
    have hs₁ := hread.fed.failure_eq hs
    have hfed := evalEntry_fed rounds r _ hs₁ hentry
    obtain ⟨rest, hmore⟩ := ih (hfed.failure_eq hs₁)
    rw [List.map_append, List.map_cons, List.map_append]
    exact ⟨rest, hread.fed.append (.idle (hfed.append hmore))⟩

theorem drafted (h : Runs rounds r s events s') : Drafted r.limits {} events := by
  induction h with
  | ended hread => exact hread.drafted _
  | left hread _ => exact hread.drafted_append_entered trivial
  | blank hread _ ih => exact hread.drafted_append_entered ih
  | endless hread _ =>
    refine hread.drafted_append_entered ?_
    rw [← List.append_nil (List.map _ _), drafted_evaluates_append]
    trivial
  | evaluated hread _ _ ih => exact hread.drafted_append_entered (drafted_evaluates_append.mpr ih)

theorem closed (h : Runs rounds r s events s') : Closed rounds r s' events := by
  induction h with
  | ended hread =>
    obtain ⟨past, m, rfl, hm, hempty⟩ := hread.ended_of_none rfl
    exact .ended (by rw [hm, hempty]) hm.symm
  | left _ hentry => exact .left hentry rfl
  | blank _ _ ih =>
    rw [List.append_cons]
    exact ih.after _
  | endless _ hentry => exact .endless hentry
  | evaluated _ _ _ ih =>
    rw [List.append_cons, ← List.append_assoc]
    exact ih.after _

end Runs

/-- Each line of an input that ends goes whole, once and in order to a prompt or to an input
expression of the entry that is being evaluated. An entry takes no more lines than it needs. -/
theorem run_shared (rounds : Nat) (r : Reading) {m : Machine} (hm : m.input.failure = none) :
    (∀ past event rest, happens rounds r m = past ++ event :: rest →
      Shared m.input.pending ((past ++ [event]).filterMap Event.taken?) event.unread ∧
      ∀ entry, event.entry? = some entry → (draft past).Makes r.limits entry) ∧
    Closed rounds r (run rounds r m) (happens rounds r m) := by
  have hruns : Runs rounds r { machine := m } (happens rounds r m) (run rounds r m) :=
    loop_runs rounds r hm (Nat.lt_succ_self _)
  refine ⟨fun past event rest heq => ?_, hruns.closed⟩
  have hdrafted := hruns.drafted
  obtain ⟨_, hfed⟩ := hruns.fed hm
  rw [heq] at hdrafted hfed
  constructor
  · rw [List.append_cons, List.map_append] at hfed
    obtain ⟨j, hfed, -⟩ := hfed.of_append
    have hshared := hfed.shared hm
    rw [List.map_append] at hfed
    rw [← hfed.last, List.filterMap_map] at hshared
    exact hshared
  · exact (drafted_append.mp hdrafted).2.1

private def talk : Bytes :=
  "kawaii f() => \x7b\nmodoru ohayo();\n\x7d\nf()\nhello\njaa ne\nunheard\n"

private def talking : List Event := happens 1 ⟨{}, false⟩ { input := { pending := talk } }

/-- Three lines make the first entry, and the fifth is read while the second is evaluated. -/
theorem run_shared_talk :
    Draft.Makes {} ⟨["kawaii f() => \x7b", "modoru ohayo();", "\x7d"], false⟩
      "kawaii f() => \x7b\nmodoru ohayo();\n\x7d" ∧
    Shared talk [.typed (some "kawaii f() => \x7b"), .typed (some "modoru ohayo();"),
      .typed (some "\x7d"), .typed (some "f()"), .value "hello"] "jaa ne\nunheard\n" ∧
    Closed 1 ⟨{}, false⟩ (run 1 ⟨{}, false⟩ { input := { pending := talk } }) talking := by
  obtain ⟨hevery, hclosed⟩ :=
    run_shared 1 ⟨{}, false⟩ (m := { input := { pending := talk } }) rfl
  have hsplit {k : Nat} {event : Event} (h : talking[k]? = some event) :
      talking = talking.take k ++ event :: talking.drop (k + 1) := by
    obtain ⟨hk, rfl⟩ := List.getElem?_eq_some_iff.mp h
    rw [List.getElem_cons_drop, List.take_append_drop]
  have htalking : draft (talking.take 3) ==
        ⟨["kawaii f() => \x7b", "modoru ohayo();", "\x7d"], false⟩ ∧
      talking[3]?.bind Event.entry? == some "kawaii f() => \x7b\nmodoru ohayo();\n\x7d" ∧
      (talking.take 12).filterMap Event.taken? == [.typed (some "kawaii f() => \x7b"),
        .typed (some "modoru ohayo();"), .typed (some "\x7d"), .typed (some "f()"),
        .value "hello"] ∧
      talking[11]?.map Event.unread == some "jaa ne\nunheard\n" := by
    decide +kernel
  simp only [beq_iff_eq] at htalking
  obtain ⟨hdraft, hthird, htaken, htenth⟩ := htalking
  refine ⟨?_, ?_, hclosed⟩
  · obtain ⟨event, hget, hentry⟩ := Option.bind_eq_some_iff.mp hthird
    obtain ⟨-, hmakes⟩ := hevery _ _ _ (hsplit hget)
    rw [← hdraft]
    exact hmakes _ hentry
  · obtain ⟨event, hget, hunread⟩ := Option.map_eq_some_iff.mp htenth
    obtain ⟨hshared, -⟩ := hevery _ _ _ (hsplit hget)
    rw [← htaken, ← hunread, List.take_add_one, hget]
    exact hshared

end Kotoba.Command.Repl

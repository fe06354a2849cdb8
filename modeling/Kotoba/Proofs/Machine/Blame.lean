import Kotoba.Proofs.Diagnostic.Excerpt
import Kotoba.Proofs.Machine.Fair
import Kotoba.Proofs.Syntax.Placed
import Kotoba.Session

/-! Where failures point. Whatever goes wrong with a program, the diagnostic says of what kind it is
and points to a token or a part of the tree, and a report quotes the line on which that starts. -/
namespace Kotoba

/-- A diagnostic that points into a text: it is of some kind, and its span is known, does not stop
before it starts, and starts on a line of the text, at the latest after the last character. So a
report of it can speak of just this line and column, and quotes the line. -/
structure Diagnostic.PointsInto (text : Bytes) (d : Diagnostic) : Prop where
  kind : d.kind.isSome
  known : d.span.isUnknown = false
  order : d.span.start.Le d.span.stop
  quoted : ∃ (n c : Nat) (line : Bytes), text.lines[n]? = some line ∧ c ≤ line.length ∧
    d.span.start = ⟨n + 1, c + 1⟩ ∧
    ∀ name, (Report.diagnostic d).render name text = d.text ++ "\n" ++
      (if name.isEmpty then .empty
        else "  --> " ++ name ++ Bytes.ofString s!":{n + 1}:{c + 1}\n") ++
      (Excerpt.numbered text.lines n ++ (Excerpt.gutter (n + 1) ++ line ++ "\n") ++
        Bytes.ofString ("     | " ++ "".pushn ' ' c ++
          "".pushn '^' (Excerpt.caretCount d.span (c + 1)) ++ "\n") ++
        Excerpt.numbered text.lines (n + 2))

theorem Diagnostic.pointsInto {text : Bytes} {d : Diagnostic} (hkind : d.kind.isSome)
    (hspan : d.span.In text.chars) (htext : text.isEmpty = false) : d.PointsInto text := by
  have hknown : d.span.isUnknown = false := by simp [Span.isUnknown, hspan.isUnknown_start]
  refine ⟨hkind, hknown, hspan.le, ?_⟩
  obtain ⟨n, line, hline, hn, hlow, hhigh⟩ := hspan.start.on_line
  obtain ⟨c, hc⟩ := Int.eq_ofNat_of_zero_le (Int.sub_nonneg.mpr hlow)
  have hcolumn : d.span.start.column = c + 1 := by omega
  have hstart : d.span.start = ⟨n + 1, c + 1⟩ := by rw [← hn, ← hcolumn]
  exact ⟨n, c, line, hline, by omega, hstart, fun name =>
    Report.render_of_start rfl htext hline hstart⟩

namespace Syntax

open Token (tokenize)

variable {limits : Token.Limits} {text : Bytes}

/-- Tokens from one on and before another are a span in the text. -/
theorem Spans.in_text {k l : Nat} {span : Span} (h : Spans (tokenize limits text) k l span)
    (hkl : k < l) : span.In text.chars := by
  obtain ⟨t, ht, hstart⟩ := h.starts
  obtain ⟨hl, -⟩ | ⟨u, -, hu, hstop⟩ := h.stops
  · omega
  · have hspan := Token.tokenize_ordered (Nat.le_sub_one_of_lt hkl) ht hu
    rwa [← hstart, ← hstop] at hspan

/-- The expressions and statements of a tree that was parsed are spans in the text. -/
theorem Rests.in_text {i j : Nat} {root m : Node} (h : Rests (tokenize limits text) i j root)
    (hm : root.Part m) (hstep : m.isStep) : m.span.In text.chars := by
  obtain ⟨k, l, -, -, hextent⟩ := h.part hm
  refine hextent.span.in_text (Nat.lt_of_le_of_ne hextent.order fun heq => ?_)
  have := hextent.blank heq
  cases m <;> first | cases this | cases hstep

/-- Where a text cannot be parsed, the diagnostic is at a token or at a fault of the scan. -/
theorem Blames.in_text {d : Diagnostic} (h : Blames (tokenize limits text) d) :
    (d.stage = .lexical ∨ d.stage = .syntactic) ∧ d.kind.isSome ∧ d.span.In text.chars := by
  obtain ⟨i, t, expected, ht, rfl⟩ | ⟨f, hf, rfl⟩ := h
  · exact ⟨.inr rfl, rfl, Token.tokenize_ordered (Nat.le_refl i) ht ht⟩
  · exact ⟨.inl rfl, rfl, Span.in_point (Token.tokenize_fault hf)⟩

end Syntax

namespace Machine

theorem Fault.stage_mem (f : Fault) :
    f.stage = .typing ∨ f.stage = .runtime ∨ f.stage = .recursion := by
  cases f <;> simp [Fault.stage]

/-- Failures of some kind at a place. -/
def FailsAt (place : Span → Prop) (f : Failure) : Prop := f.fault.kind?.isSome ∧ place f.span

/-- Trees whose expressions and statements are at a place fail there. -/
theorem fair_failsAt (place : Span → Prop) :
    Fair (Value.Runs fun n => n.isStep → place n.span) (fun n => n.isStep → place n.span)
      (FailsAt place) True := by
  refine fair_runs ?_ (fun hn _ => ⟨rfl, hn rfl⟩) fun _ => trivial
  rintro span ⟨n, hn, hstep, rfl⟩ f hf
  exact ⟨Fault.isSome_kind? hf, hn hstep⟩

/-- A tree fails at one of its expressions and statements, on a machine that holds nothing yet. -/
theorem interpret_failsAt {n : Node} (hn : Runnable n) (rounds : Nat) {m m' : Machine} {f : Failure}
    (hm : ∀ good, Holds good m) (hf : interpret rounds n m = .error f m') :
    FailsAt (fun span => ∃ part, n.Part part ∧ part.isStep ∧ span = part.span) f := by
  let place (span : Span) : Prop := ∃ part, n.Part part ∧ part.isStep ∧ span = part.span
  have hevery : n.Every fun m => m.isStep → place m.span := fun part hp hs => ⟨part, hp, hs, rfl⟩
  have hrun := Minds.interpret (fair_failsAt place) rounds hn hevery m (hm _)
  rw [hf] at hrun
  cases hrun with
  | error holds failure => exact failure

end Machine

namespace Session

open Syntax (Blames parseProgram)

/-- What answers say that report a failure. If the text could not be parsed, it is lexical or
syntactic, at a token or where the scan ended; otherwise it is one of typing, of the run or of
recursion, at an expression or a statement of the program. In either case it points into the
text. -/
def Answer.PointsInto (limits : Token.Limits) (text : Bytes) : Answer → Prop
  | unparsed d => (d.stage = .lexical ∨ d.stage = .syntactic) ∧ d.PointsInto text ∧
    Blames (Token.tokenize limits text) d
  | failed d => (d.stage = .typing ∨ d.stage = .runtime ∨ d.stage = .recursion) ∧
    d.PointsInto text ∧ ∃ p s part, parseProgram limits text = .ok p s ∧
      (Node.program p).Part part ∧ part.isStep ∧ d.span = part.span
  | value _ | endless => True

section Programs

variable (settings : Machine.Settings) (disk : Disk) (input : Console.Input)
  (output : Console.Output) (rounds : Nat) (r : Reading) (text : Bytes)

/-- Nothing goes wrong with the empty program. -/
private theorem execute_empty :
    ∃ v, (execute rounds r .empty { settings, disk, input, output }).1 = .value v := ⟨_, rfl⟩

/-- Every failure of a program says of what sort it is and points into the text. -/
theorem execute_pointsInto :
    (execute rounds r text { settings, disk, input, output }).1.PointsInto r.limits text := by
  by_cases htext : text.isEmpty
  · obtain rfl : text = .empty := ByteArray.size_eq_zero_iff.mp (eq_of_beq htext)
    obtain ⟨v, hv⟩ := execute_empty settings disk input output rounds r
    rw [hv]
    trivial
  have hne : text.isEmpty = false := by simpa using htext
  have hgoes := Syntax.goes_parseProgram r.limits text
  simp only [execute, run, parseWhole]
  cases hparse : parseProgram r.limits text with
  | exhausted => trivial
  | error d s =>
    rw [hparse] at hgoes
    cases hgoes with
    | error blames =>
      obtain ⟨hstage, hkind, hspan⟩ := blames.in_text
      exact ⟨hstage, Diagnostic.pointsInto hkind hspan hne, blames⟩
  | ok p s =>
    rw [hparse] at hgoes
    obtain ⟨-, -, hlies⟩ := hgoes
    dsimp only [interpret]
    cases hrun : Machine.interpret rounds (.program p)
        (noteParse r s { settings, disk, input, output }) with
    | ok v m => trivial
    | exhausted => trivial
    | error f m =>
      obtain ⟨hkind, part, hpart, hstep, hspan⟩ := Machine.interpret_failsAt rfl rounds
        (fun good => Machine.holds_fresh good _ rfl rfl rfl rfl) hrun
      have hin : f.span.In text.chars := hspan ▸ hlies.in_text hpart hstep
      exact ⟨f.fault.stage_mem, Diagnostic.pointsInto hkind hin hne, p, s, part, hparse, hpart,
        hstep, hspan⟩

-- a text that cannot be parsed, and a function that fails when it is called further down
example : (match (execute 1 ⟨{}, false⟩ "uWu_nyaa() =>\n  yomu(1;" {}).1 with
    | .unparsed d => some (d.stage, d.span.start)
    | _ => none) = some (.syntactic, ⟨2, 9⟩) := by decide +kernel

example : (match (execute 1 ⟨{}, false⟩
      "kawaii f(x) =>\n  modoru 1 / x;\nuWu_nyaa() => yomu(f(0));" {}).1 with
    | .failed d => some (d.stage, d.span.start)
    | _ => none) = some (.runtime, ⟨2, 10⟩) := by decide +kernel

end Programs

end Session

end Kotoba

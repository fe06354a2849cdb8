import Kotoba.Proofs.Token.Place

/-! Readers. A reader hands out the tokens of its text in their order and each of them once, however
often it is looked ahead, until the first fault; and it starts over as if it were new. -/
namespace Kotoba.Token

/-- What comes after the first `i` tokens: the next of them, or how they end. -/
def Scan.outcome (a : Scan) (i : Nat) : Except Fault Token :=
  match a.tokens[i]? with
  | some token => .ok token
  | none => a.ending

namespace Reader

/-- What a reader is asked for: the next token, to be taken or to be looked at. -/
inductive Ask where
  | get
  | peek
deriving DecidableEq

/-- The answer to one request, and the reader after it. -/
def answer (r : Reader) : Ask → Except Fault Token × Reader
  | .get => r.get
  | .peek => r.peek

/-- The answers to requests, one after the other. They go on after a fault. -/
def answers (r : Reader) : List Ask → List (Except Fault Token)
  | [] => []
  | ask :: asks => (r.answer ask).1 :: (r.answer ask).2.answers asks

end Reader

section Cursors

variable {limits : Limits} {a : Scan} {i : Nat} {c c' : Cursor} {t : Token}

/-- A cursor from which on the tokens of `a` from number `i` on are scanned. -/
def Cursor.Before (limits : Limits) (a : Scan) (i : Nat) (c : Cursor) : Prop :=
  ∀ fuel, c.rest.length < fuel → scanAll limits fuel c = ⟨a.tokens.drop i, a.ending⟩

/-- The end of the text is found again where it was found. -/
theorem scan_again (hscan : scan limits c = (.ok t, c')) (ht : t.lexeme = .endOfInput) :
    scan limits c' = (.ok t, c') := by
  unfold scan at hscan
  dsimp only at hscan
  generalize skipGap .blanks c.rest c.here c.last = c₀ at hscan
  by_cases hnil : c₀.rest = []
  · have hread : readLexeme limits c₀ = (.ok .endOfInput, c₀) := by rw [readLexeme, hnil]
    rw [hread] at hscan
    obtain ⟨rfl, rfl⟩ : (⟨.endOfInput, c₀.here, c₀.here⟩ : Token) = t ∧ c₀ = c' := by
      simpa using hscan
    have hskip : skipGap .blanks c₀.rest c₀.here c₀.last = c₀ := by
      rw [hnil, skipGap, ← hnil]
    unfold scan
    dsimp only
    rw [hskip, hread]
  · cases hread : readLexeme limits c₀ with
    | mk result c₁ =>
      rw [hread] at hscan
      cases result with
      | error f => simp at hscan
      | ok lexeme =>
        have hkind : lexeme.kind ≠ .endOfInput :=
          (readLexeme_progress limits hnil (by rw [hread]; rfl)).1
        have hlexeme : t.lexeme = lexeme := by
          cases lexeme with
          | endOfInput => exact absurd rfl hkind
          | _ =>
            have htoken := congrArg Prod.fst hscan
            have := Except.ok.inj htoken
            rw [← this]
        rw [← hlexeme, ht] at hkind
        exact absurd rfl hkind

/-- What comes next is the head of the tokens that are left, or their end. -/
theorem Scan.outcome_eq (a : Scan) (i : Nat) :
    a.outcome i = match a.tokens.drop i with
      | token :: _ => .ok token
      | [] => a.ending := by
  unfold outcome
  rw [← List.head?_drop]
  cases a.tokens.drop i with
  | nil => rfl
  | cons token rest => rfl

/-- Scanning one token gives what comes next, and after a token the others follow. -/
theorem Cursor.Before.scan (h : c.Before limits a i) :
    (Token.scan limits c).1 = a.outcome i ∧
      ∀ t, a.outcome i = .ok t → (Token.scan limits c).2.Before limits a (i + 1) := by
  have hall := h (c.rest.length + 1) (Nat.lt_succ_self _)
  rw [scanAll] at hall
  rw [Scan.outcome_eq]
  obtain ⟨-, t, c', hscan, ht⟩ | ⟨hne, ⟨-, f, c', hscan⟩ | ⟨t, c', hscan, ht, hread⟩⟩ :=
    scan_cases limits c
  · -- at the end of the text it is the end again, however often it is asked for
    rw [hscan] at hall ⊢
    simp only [ht, Scan.mk.injEq] at hall
    obtain ⟨hdrop, hending⟩ := hall
    have hnext : a.tokens.drop (i + 1) = [] := by rw [← List.tail_drop, ← hdrop, List.tail_nil]
    rw [← hdrop, ← hending, Before]
    refine ⟨rfl, fun _ _ fuel hfuel => ?_⟩
    obtain ⟨fuel, rfl⟩ := Nat.exists_eq_add_one_of_ne_zero (Nat.ne_zero_of_lt hfuel)
    rw [scanAll, scan_again hscan ht, hnext]
    simp only [ht, hending]
  · rw [hscan] at hall ⊢
    simp only [Scan.mk.injEq] at hall
    obtain ⟨hdrop, hending⟩ := hall
    rw [← hdrop, ← hending]
    constructor
    · rfl
    · rintro t ⟨⟩
  · have hlexeme : t.lexeme ≠ .endOfInput := by
      intro he
      rw [Token.kind, he] at ht
      exact ht rfl
    have hlt : c'.rest.length < c.rest.length := by
      exact Nat.lt_of_lt_of_le (readLexeme_progress limits hne hread).2 (length_pass_le _ _)
    have hcons : (⟨t :: (scanAll limits c.rest.length c').tokens,
        (scanAll limits c.rest.length c').ending⟩ : Scan) = ⟨a.tokens.drop i, a.ending⟩ := by
      rw [← hall, hscan]
      dsimp only
      split
      · next he => exact absurd he hlexeme
      · rfl
    obtain ⟨hdrop, hending⟩ := Scan.mk.inj hcons
    rw [hscan, ← hdrop]
    refine ⟨rfl, fun _ _ fuel hfuel => ?_⟩
    rw [scanAll_fuel hfuel hlt, ← List.tail_drop, ← hdrop, List.tail_cons, ← hending]

end Cursors

namespace Reader

variable {a : Scan} {i : Nat} {r : Reader}

theorem get_eq (r : Reader) : r.get =
    match r.ahead with
    | some token => (.ok token, { r with ahead := none })
    | none =>
      match scan r.limits r.cursor with
      | (.ok token, cursor) => (.ok token, { r with cursor, scanned := token :: r.scanned })
      | (.error fault, cursor) => (.error fault, { r with cursor }) := rfl

/-- To look at a token is to take it and to keep it for later. -/
theorem peek_eq (r : Reader) : r.peek =
    match r.ahead with
    | some token => (.ok token, r)
    | none =>
      match r.get with
      | (.ok token, r) => (.ok token, { r with ahead := some token })
      | (.error fault, r) => (.error fault, r) := by
  obtain ⟨limits, cursor, ahead, scanned⟩ := r
  cases ahead with
  | some token => rfl
  | none => rfl

variable {limits : Limits}

/-- A reader that has scanned `i` tokens of `a` and handed them all out. -/
structure Level (limits : Limits) (a : Scan) (i : Nat) (r : Reader) : Prop where
  ahead : r.ahead = none
  limits_eq : r.limits = limits
  cursor : r.cursor.Before limits a i

/-- A reader that has handed out `i` tokens of `a`. The next one may have been looked at, and then it
was scanned. -/
inductive Handed (limits : Limits) (a : Scan) (i : Nat) (r : Reader) : Prop
  | level (h : r.Level limits a i)
  | peeked {t : Token} (ahead : r.ahead = some t) (token : a.outcome i = .ok t)
    (h : { r with ahead := none }.Level limits a (i + 1))

/-- Scanning the next token in order to take it. -/
theorem Level.get (h : r.Level limits a i) :
    r.get.1 = a.outcome i ∧ ∀ t, a.outcome i = .ok t → r.get.2.Level limits a (i + 1) := by
  obtain ⟨hnext, hrest⟩ := h.cursor.scan
  rw [get_eq, h.ahead, h.limits_eq]
  rw [← hnext] at hrest ⊢
  cases hscan : scan limits r.cursor with
  | mk result c =>
    rw [hscan] at hrest
    cases result with
    | error f => exact ⟨rfl, fun _ he => nomatch he⟩
    | ok t => exact ⟨rfl, fun _ _ => ⟨rfl, rfl, hrest t rfl⟩⟩

/-- A token is taken, and if there was one the reader goes on after it. -/
theorem Handed.get (h : r.Handed limits a i) :
    r.get.1 = a.outcome i ∧ ∀ t, a.outcome i = .ok t → r.get.2.Handed limits a (i + 1) := by
  cases h with
  | level h =>
    obtain ⟨hnext, hrest⟩ := h.get
    exact ⟨hnext, fun t ht => .level (hrest t ht)⟩
  | peeked ahead token h =>
    rw [get_eq, ahead, token]
    exact ⟨rfl, fun _ _ => .level h⟩

/-- A token is looked at, and the reader stays before it. -/
theorem Handed.peek (h : r.Handed limits a i) :
    r.peek.1 = a.outcome i ∧ ∀ t, a.outcome i = .ok t → r.peek.2.Handed limits a i := by
  rw [peek_eq]
  cases h with
  | peeked ahead token h =>
    rw [ahead]
    exact ⟨token.symm, fun _ _ => .peeked ahead token h⟩
  | level h =>
    obtain ⟨hnext, hrest⟩ := h.get
    rw [h.ahead]
    cases hget : r.get with
    | mk result r' =>
      rw [hget] at hnext hrest
      cases result with
      | error f => exact ⟨hnext, fun t ht => nomatch hnext.trans ht⟩
      | ok t =>
        have hlevel : r'.Level limits a (i + 1) := hrest t hnext.symm
        exact ⟨hnext, fun _ _ => .peeked rfl hnext.symm ⟨rfl, hlevel.limits_eq, hlevel.cursor⟩⟩

/-- How many tokens are taken. -/
def taken (asks : List Ask) : Nat := asks.count .get

/-- One request: the answer is what comes next, and only a token that is taken is passed over. -/
theorem Handed.answer (h : r.Handed limits a i) (ask : Ask) :
    (r.answer ask).1 = a.outcome i ∧
      ∀ t, a.outcome i = .ok t → (r.answer ask).2.Handed limits a (i + taken [ask]) := by
  cases ask with
  | get => exact h.get
  | peek => exact h.peek

/-- All requests up to the first fault. -/
theorem Handed.answers {asks : List Ask} (h : r.Handed limits a i) {k : Nat}
    {x : Except Fault Token} (hx : (r.answers asks)[k]? = some x)
    (hclean : ∀ m < k, ∃ t, (r.answers asks)[m]? = some (.ok t)) :
    x = a.outcome (i + taken (asks.take k)) := by
  induction asks generalizing r i k with
  | nil => simp [Reader.answers] at hx
  | cons ask asks ih =>
    obtain ⟨hnext, hrest⟩ := h.answer ask
    cases k with
    | zero =>
      have hx : (r.answer ask).1 = x := by simpa [Reader.answers] using hx
      rw [← hx, hnext]
      rfl
    | succ k =>
      obtain ⟨t, ht⟩ := hclean 0 (Nat.succ_pos k)
      have ht : (r.answer ask).1 = .ok t := by simpa [Reader.answers] using ht
      have hlater : x = a.outcome (i + taken [ask] + taken (asks.take k)) := by
        apply ih (hrest t (hnext.symm.trans ht))
        · simpa [Reader.answers] using hx
        · intro m hm
          simpa [Reader.answers] using hclean (m + 1) (Nat.succ_lt_succ hm)
      have hcount : taken ((ask :: asks).take (k + 1)) = taken [ask] + taken (asks.take k) := by
        unfold taken
        rw [List.take_succ_cons, ← List.singleton_append, List.count_append]
      rw [hlater, hcount, Nat.add_assoc]

/-- A reader that starts over on a text has handed out nothing of it. -/
theorem handed_restart (r : Reader) (text : Bytes) :
    (r.restart text).Handed r.limits (tokenize r.limits text) 0 := by
  apply Handed.level
  constructor
  · rfl
  · rfl
  · intro fuel hfuel
    exact scanAll_fuel hfuel (Nat.lt_succ_self _)

@[simp] theorem length_answers (r : Reader) (asks : List Ask) :
    (r.answers asks).length = asks.length := by
  induction asks generalizing r with
  | nil => rfl
  | cons ask asks ih => simp [answers, ih]

/-- What was scanned before makes no difference to an answer, nor to the reader after it. -/
theorem answer_withScanned (r : Reader) (ts : List Token) (ask : Ask) :
    ∃ us, { r with scanned := ts }.answer ask =
      ((r.answer ask).1, { (r.answer ask).2 with scanned := us }) := by
  obtain ⟨limits, cursor, ahead, scanned⟩ := r
  cases ahead with
  | some t => cases ask <;> exact ⟨ts, rfl⟩
  | none =>
    cases hscan : scan limits cursor with
    | mk result c =>
      cases result with
      | error f => cases ask <;> exact ⟨ts, by simp [answer, peek_eq, get_eq, hscan]⟩
      | ok t => cases ask <;> exact ⟨t :: ts, by simp [answer, peek_eq, get_eq, hscan]⟩

theorem answers_withScanned (r : Reader) (ts : List Token) (asks : List Ask) :
    { r with scanned := ts }.answers asks = r.answers asks := by
  induction asks generalizing r ts with
  | nil => rfl
  | cons ask asks ih =>
    obtain ⟨us, hus⟩ := answer_withScanned r ts ask
    simp only [answers, hus, ih]

/-- Looking ahead disturbs nothing. However requests to take and to look at a token are mixed, every
one of them is answered, up to and including the first fault, by what comes in the text after the
tokens that were taken before: a token, the end of the text once there are no more of them, or the
fault that scanning the whole text ends with. A reader that starts over does so as a new one,
whatever it was asked for before. -/
theorem answers_in_order (r : Reader) (text : Bytes) (asks : List Ask) :
    ((r.restart text).answers asks).length = asks.length ∧
      (∀ k x, ((r.restart text).answers asks)[k]? = some x →
        (∀ m < k, ∃ t, ((r.restart text).answers asks)[m]? = some (.ok t)) →
          x = (tokenize r.limits text).outcome (taken (asks.take k))) ∧
      (r.restart text).answers asks =
        (({ limits := r.limits } : Reader).restart text).answers asks := by
  refine ⟨length_answers _ _, fun k x hx hclean => ?_, ?_⟩
  · have hanswer := (handed_restart r text).answers hx hclean
    rwa [Nat.zero_add] at hanswer
  · exact (answers_withScanned (r.restart text) [] asks).symm

/-- Whether the first fault is answer number `k` and is reported at `p`. -/
private def faultsAt (xs : List (Except Fault Token)) (k : Nat) (p : Position) : Bool :=
  (xs.take k).all (fun x => x.toOption.isSome) &&
    match xs[k]? with
    | some (.error f) => f.position == p
    | _ => false

private theorem exists_of_faultsAt {xs : List (Except Fault Token)} {k : Nat} {p : Position}
    (h : faultsAt xs k p) :
    ∃ f, xs[k]? = some (.error f) ∧ f.position = p ∧ ∀ m < k, ∃ t, xs[m]? = some (.ok t) := by
  unfold faultsAt at h
  obtain ⟨hall, hlast⟩ := Bool.and_eq_true_iff.mp h
  split at hlast
  · next f hf =>
    refine ⟨f, hf, eq_of_beq hlast, fun m hm => ?_⟩
    have hlt : m < xs.length := Nat.lt_trans hm (List.getElem?_eq_some_iff.mp hf).1
    have hmem : xs[m] ∈ xs.take k := List.mem_take_iff_getElem.mpr ⟨m, by omega, rfl⟩
    have hsome := List.all_eq_true.mp hall _ hmem
    rw [List.getElem?_eq_getElem hlt]
    cases hx : xs[m] with
    | ok t => exact ⟨t, rfl⟩
    | error f => simp [hx, Except.toOption] at hsome
  · cases hlast

/-- A reader that holds a token of another text starts over, and meets a fault as it looks ahead. -/
theorem answers_in_order_buffered :
    let r := (({} : Reader).restart "a b").peek.2
    let answers := (r.restart "x 1 @").answers [.peek, .get, .get, .peek]
    ∃ f, answers[3]? = some (.error f) ∧ f.position = ⟨1, 5⟩ ∧
      (∀ m < 3, ∃ t, answers[m]? = some (.ok t)) ∧
      (tokenize r.limits "x 1 @").outcome 2 = .error f := by
  intro r answers
  have hfault : faultsAt answers 3 ⟨1, 5⟩ := by decide +kernel
  obtain ⟨f, hf, hposition, hclean⟩ := exists_of_faultsAt hfault
  have hanswer := (answers_in_order r "x 1 @" [.peek, .get, .get, .peek]).2.1 3 _ hf hclean
  exact ⟨f, hf, hposition, hclean, hanswer.symm⟩

end Reader

end Kotoba.Token

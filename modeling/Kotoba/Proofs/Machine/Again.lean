import Kotoba.Proofs.Machine.Key
import Kotoba.Proofs.Machine.Retain
import Kotoba.Proofs.Value.Show

/-! Calls that are made again with the same arguments. As long as the result of the first is not
replaced and few others are used, the second is answered with the very value that the first gave. -/
namespace Kotoba

namespace Machine

/-- A record that begins with a call and ends with the end of that call. -/
def IsCall (record : List Moment) (f : Function) (args : List Value) (began : Machine)
    (closing : Moment) : Prop :=
  ∃ scope rest, record = ⟨.calls f args scope, began⟩ :: rest ∧ ending 0 rest = [closing]

theorem ending_suffix (calls : Nat) (record : List Moment) : ending calls record <:+ record := by
  fun_induction ending calls record with
  | case1 => exact List.suffix_rfl
  | case2 calls moment rest _ ih => exact ih.trans (List.suffix_cons moment rest)
  | case3 => exact List.suffix_rfl
  | case4 moment rest _ _ calls ih => exact ih.trans (List.suffix_cons moment rest)
  | case5 calls moment rest _ _ ih => exact ih.trans (List.suffix_cons moment rest)

/-- Calls of one function with the same tagged texts of their arguments have the same key. -/
theorem Opens.key_eq {opening opening' : Moment} {f : Function} {args args' : List Value}
    {key key' : Digest} (h : Opens opening f args key) (h' : Opens opening' f args' key')
    (hargs : args.map opening.machine.store.serialize =
      args'.map opening'.machine.store.serialize) : key = key' := by
  obtain ⟨scope, s, -, -, hname, hsymbols, rfl⟩ := h
  obtain ⟨scope', s', -, -, hname', hsymbols', rfl⟩ := h'
  have halike : List.Forall₂ (Scope.Alike opening.machine.store opening'.machine.store)
      s.symbols s'.symbols := by
    rw [hsymbols, hsymbols']
    exact alike_bound .nil hargs
  rw [Scope.content_of_alike (hname.trans hname'.symm) halike]

/-- A call that ended left its result as the one used last. -/
theorem Closes.head {opening closing : Moment} {f g : Function} {key k : Digest} {v : Value}
    (h : Closes opening closing f key) (hresult : closing.note.result? = some (g, k, v)) :
    k = key ∧ (0 < closing.machine.memory.capacity →
      ∃ rest, closing.machine.memory.entries = (key, v) :: rest) := by
  obtain ⟨w, ⟨hnote, hfound⟩ | ⟨hnote, -, memory, hmemory⟩⟩ := h
  · rw [hnote] at hresult
    cases hresult
    obtain ⟨u, -, hpair⟩ := Option.map_eq_some_iff.mp hfound
    obtain ⟨rfl, hmemory⟩ := Prod.mk.inj hpair
    exact ⟨rfl, fun _ => ⟨_, by rw [← hmemory]⟩⟩
  · rw [hnote] at hresult
    cases hresult
    refine ⟨rfl, fun hroom => ?_⟩
    rw [hmemory] at hroom ⊢
    obtain ⟨n, hn⟩ := Nat.exists_eq_add_one_of_ne_zero (Nat.ne_of_gt hroom)
    have hcapacity : memory.capacity = n + 1 := hn
    exact ⟨_, by rw [Recall.add, hcapacity, List.take_succ_cons]⟩

/-- A call in a session, from its opening to its end. -/
theorem Saga.isCall {memory : Recall} {happened past record after : List Moment} {f : Function}
    {args : List Value} {began : Machine} {closing : Moment} (h : Saga memory happened)
    (hhappened : happened = past ++ record ++ after) (hcall : IsCall record f args began closing) :
    ∃ opening inner key, record = opening :: (inner ++ [closing]) ∧ opening.machine = began ∧
      Opens opening f args key ∧ Closes opening closing f key := by
  obtain ⟨scope, rest, rfl, hending⟩ := hcall
  have hmore : ending 0 (rest ++ after) = closing :: after := by
    rw [ending_append after (by rw [hending]; exact List.cons_ne_nil _ _), hending]
    rfl
  rw [List.append_assoc, List.cons_append] at hhappened
  obtain ⟨g, args', key, hopens, hcloses⟩ := h.call hhappened rfl hmore
  obtain ⟨rfl, rfl⟩ : g = f ∧ args' = args := by
    obtain ⟨scope', s, hnote, -⟩ := hopens
    cases hnote
    exact ⟨rfl, rfl⟩
  obtain ⟨inner, hinner⟩ := ending_suffix 0 rest
  rw [hending] at hinner
  exact ⟨_, inner, key, by rw [hinner], rfl, hopens, hcloses⟩

end Machine

namespace Session

open Machine (Moment IsCall keysUsed)

/-- A function is called again with arguments that have the same tagged texts. If no function was
defined in between and no call ended that ran under the same key, and fewer other keys were used
than results can be remembered, the second call is answered with the value that the first gave. It
has the same text, unless an array or a file that can be reached from it has changed. -/
theorem answered_again (settings : Machine.Settings) (disk : Disk) (input : Console.Input)
    (output : Console.Output) (rounds : Nat) (r : Reading) (entries : List Bytes)
    (past first between second after : List Moment) (f : Function) (args args' : List Value)
    (began began' : Machine) (closing closing' : Moment) (key : Digest) (v : Value)
    (h : history rounds r entries { settings, disk, input, output } =
      past ++ first ++ between ++ second ++ after)
    (hfirst : IsCall first f args began closing)
    (hsecond : IsCall second f args' began' closing')
    (hargs : args.map began.store.serialize = args'.map began'.store.serialize)
    (hresult : closing.note.result? = some (f, key, v))
    (hreplaces : ∀ moment ∈ between, moment.note.replaces key = false)
    (hfew : ((keysUsed between).toFinset.erase key).card < settings.recallSize) :
    closing'.note = .answers f key v ∧
      ((∀ w, closing.machine.store.Reaches v w →
          closing.machine.store.SameAt closing'.machine.store w) →
        closing'.machine.store.format v = closing.machine.store.format v) := by
  refine ⟨?_, fun hsame => Store.format_eq hsame⟩
  have hsaga := history_saga rounds r entries { settings, disk, input, output }
  rw [h] at hsaga
  have hshape : past ++ first ++ between ++ second ++ after =
      past ++ first ++ (between ++ second ++ after) := by simp
  obtain ⟨opening, inner, k, rfl, rfl, hopens, hcloses⟩ := hsaga.isCall hshape hfirst
  obtain ⟨opening', inner', k', rfl, rfl, hopens', hcloses'⟩ := hsaga.isCall rfl hsecond
  obtain rfl : k = k' := hopens.key_eq hopens' hargs
  obtain ⟨rfl, hhead⟩ := hcloses.head hresult
  -- what is remembered when the second call begins comes of what was when the first ended
  have hlinked := hsaga.linked
  have hsplit : past ++ opening :: (inner ++ [closing]) ++ between ++
      opening' :: (inner' ++ [closing']) ++ after = past ++ opening :: inner ++
        closing :: (between ++ opening' :: (inner' ++ closing' :: after)) := by simp
  rw [hsplit] at hlinked
  have hcapacity : closing.machine.memory.capacity = settings.recallSize := by
    rw [hlinked.memory_eq, Machine.capacity_foldl]
  have hmemory := hlinked.tail.memory_eq
  rw [List.foldl_append, List.foldl_cons, List.foldl_nil, hopens'.recallAfter_eq] at hmemory
  have hroom : 0 < closing.machine.memory.capacity := by omega
  obtain ⟨rest, hentries⟩ := hhead hroom
  have hretained : opening'.machine.memory.Retains ((keysUsed between).toFinset.erase key) key v := by
    rw [hmemory]
    refine Machine.retains_foldl (Recall.retains_of_head ?_ hentries) hreplaces fun x hx hne => ?_
    · rw [hcapacity]
      exact hfew
    · exact Finset.mem_erase.mpr ⟨hne, List.mem_toFinset.mpr hx⟩
  obtain ⟨found, hfound⟩ := hretained.exists_get?
  obtain ⟨w, ⟨hnote, hanswer⟩ | ⟨-, hmissed, -⟩⟩ := hcloses'
  · rw [hfound] at hanswer
    cases hanswer
    exact hnote
  · rw [hfound] at hmissed
    cases hmissed

section Rereading

/-- A function of one parameter that gives back a global, as it is read from the session below. -/
private def reader : Function where
  name := "f"
  params := ["x"]
  body := some ⟨[.giveBack (some (.name ⟨"g", ⟨⟨1, 23⟩, ⟨1, 23⟩⟩⟩)) ⟨⟨1, 16⟩, ⟨1, 23⟩⟩],
    ⟨⟨1, 16⟩, ⟨1, 24⟩⟩⟩

private def isReader (f : Function) : Bool :=
  match f.body with
  | some ⟨[.giveBack (some (.name x)) span], whole⟩ =>
    f.name == "f" && f.params == ["x"] && x.name == "g" && x.span == ⟨⟨1, 23⟩, ⟨1, 23⟩⟩ &&
      span == ⟨⟨1, 16⟩, ⟨1, 23⟩⟩ && whole == ⟨⟨1, 16⟩, ⟨1, 24⟩⟩
  | _ => false

private theorem eq_of_isReader {f : Function} (h : isReader f) : f = reader := by
  obtain ⟨name, params, body⟩ := f
  unfold isReader at h
  split at h
  · next x span whole hbody =>
    obtain ⟨y, place⟩ := x
    simp only [Bool.and_eq_true, beq_iff_eq] at h
    obtain ⟨⟨⟨⟨⟨rfl, rfl⟩, rfl⟩, rfl⟩, rfl⟩, rfl⟩ := h
    cases hbody
    rfl
  · cases h

/-- The result of the call with which a record begins. -/
private def outcome? (record : List Moment) : Option (Function × Digest × Value) :=
  (Machine.ending 0 record.tail).head?.bind (·.note.result?)

/-- Whether a record is that of a call of the reader with zero that ends with an integer. -/
private def isReading (n : Int64) (record : List Moment) : Bool :=
  (Machine.ending 0 record.tail).length == 1 &&
    match record.head?.map (·.note), outcome? record with
    | some (Machine.Note.calls f [.int k] _), some (g, _, .int result) =>
      isReader f && isReader g && k == 0 && result == n
    | _, _ => false

private theorem isCall_of_isReading {n : Int64} {record : List Moment} (h : isReading n record) :
    ∃ began closing key, IsCall record reader [.int 0] began closing ∧
      closing.note.result? = some (reader, key, .int n) ∧
      outcome? record = some (reader, key, .int n) := by
  unfold isReading at h
  obtain ⟨hlength, h⟩ := Bool.and_eq_true_iff.mp h
  obtain ⟨closing, hending⟩ := List.length_eq_one_iff.mp (eq_of_beq hlength)
  have houtcome : outcome? record = closing.note.result? := by
    unfold outcome?
    rw [hending]
    rfl
  split at h
  · next f k scope g key result hcalls hresult =>
    simp only [Bool.and_eq_true, beq_iff_eq] at h
    obtain ⟨⟨⟨hf, hg⟩, rfl⟩, rfl⟩ := h
    rw [eq_of_isReader hg] at hresult
    rw [eq_of_isReader hf] at hcalls
    cases record with
    | nil => cases hcalls
    | cons opening rest =>
      obtain ⟨note, began⟩ := opening
      cases hcalls
      exact ⟨began, closing, key, ⟨scope, rest, rfl, hending⟩, houtcome ▸ hresult, hresult⟩
  · cases h

private theorem parts_eq {α : Type} (xs : List α) (a b c d : Nat) :
    xs = xs.take a ++ (xs.drop a).take b ++ ((xs.drop a).drop b).take c ++
      (((xs.drop a).drop b).drop c).take d ++ (((xs.drop a).drop b).drop c).drop d := by
  simp only [List.append_assoc, List.take_append_drop]

/-- What happens when a function is called, another one is called, and the first is called again
after a global on which it depends has changed. -/
private def rereading (recallSize : Nat) : List Moment :=
  history 1 ⟨{}, false⟩ ["kawaii f(x) => modoru g;", "kawaii h(x) => modoru x;", "g = 1", "f(0)",
    "h(0)", "g = 2", "f(0)"] { settings := { recallSize } }

/-- Whether nothing in a record has to do with the call with which another one begins, and fewer
than some number of other keys are used in it. -/
private def isQuiet (recallSize : Nat) (first between : List Moment) : Bool :=
  match outcome? first with
  | some (_, key, _) =>
    between.all (fun moment => !moment.note.replaces key) &&
      decide (((keysUsed between).toFinset.erase key).card < recallSize)
  | none => false

private def isDefining (moment : Moment) : Bool :=
  match moment.note with
  | .defines _ => true
  | _ => false

private theorem quiet_of_isQuiet {recallSize : Nat} {first between : List Moment} {f : Function}
    {key : Digest} {v : Value} (h : isQuiet recallSize first between)
    (houtcome : outcome? first = some (f, key, v)) :
    (∀ moment ∈ between, moment.note.replaces key = false) ∧
      ((keysUsed between).toFinset.erase key).card < recallSize := by
  unfold isQuiet at h
  rw [houtcome] at h
  obtain ⟨hquiet, hfew⟩ := Bool.and_eq_true_iff.mp h
  refine ⟨fun moment hmoment => ?_, of_decide_eq_true hfew⟩
  simpa using List.all_eq_true.mp hquiet moment hmoment

theorem answered_again_rereading :
    ∃ past first between second after began began' closing closing' key,
      rereading 2 = past ++ first ++ between ++ second ++ after ∧
      IsCall first reader [.int 0] began closing ∧
      IsCall second reader [.int 0] began' closing' ∧
      [Value.int 0].map began.store.serialize = [Value.int 0].map began'.store.serialize ∧
      closing.note.result? = some (reader, key, .int 1) ∧
      (∀ moment ∈ between, moment.note.replaces key = false) ∧
      ((keysUsed between).toFinset.erase key).card < 2 ∧
      closing'.note = .answers reader key (.int 1) ∧
      closing'.machine.store.format (.int 1) = closing.machine.store.format (.int 1) := by
  have hparts := parts_eq (rereading 2) 10 6 20 2
  obtain ⟨began, closing, key, hfirst, hresult, houtcome⟩ := isCall_of_isReading
    (show isReading 1 (((rereading 2).drop 10).take 6) from by decide +kernel)
  obtain ⟨began', closing', _, hsecond, -, -⟩ := isCall_of_isReading
    (show isReading 1 (((((rereading 2).drop 10).drop 6).drop 20).take 2) from by decide +kernel)
  obtain ⟨hquiet, hfew⟩ := quiet_of_isQuiet (show isQuiet 2 (((rereading 2).drop 10).take 6)
    ((((rereading 2).drop 10).drop 6).take 20) from by decide +kernel) houtcome
  obtain ⟨hanswer, hformat⟩ := answered_again { recallSize := 2 } _ _ _ _ _ _ _ _ _ _ _ _ _ _ _ _
    _ _ _ _ hparts hfirst hsecond rfl hresult hquiet hfew
  have hself : ∀ w, closing.machine.store.Reaches (.int 1) w → w = .int 1 := by
    intro w hw
    induction hw with
    | self => rfl
    | element _ _ ih => cases ih
  refine ⟨_, _, _, _, _, began, began', closing, closing', key, hparts, hfirst, hsecond, rfl,
    hresult, hquiet, hfew, hanswer, hformat fun w hw => ?_⟩
  rw [hself w hw]
  trivial

/-- If only one result can be remembered, a call of another function is enough for the first to be
forgotten. -/
theorem answered_again_forgotten :
    ∃ past first between second after began began' closing closing' key key',
      rereading 1 = past ++ first ++ between ++ second ++ after ∧
      IsCall first reader [.int 0] began closing ∧
      IsCall second reader [.int 0] began' closing' ∧
      [Value.int 0].map began.store.serialize = [Value.int 0].map began'.store.serialize ∧
      (∀ moment ∈ between, ∀ d, moment.note ≠ .defines d) ∧
      closing.note.result? = some (reader, key, .int 1) ∧
      closing'.note.result? = some (reader, key', .int 2) ∧
      closing'.machine.store.format (.int 2) ≠ closing.machine.store.format (.int 1) := by
  have hparts := parts_eq (rereading 1) 10 6 20 6
  obtain ⟨began, closing, key, hfirst, hresult, -⟩ := isCall_of_isReading
    (show isReading 1 (((rereading 1).drop 10).take 6) from by decide +kernel)
  obtain ⟨began', closing', key', hsecond, hresult', -⟩ := isCall_of_isReading
    (show isReading 2 (((((rereading 1).drop 10).drop 6).drop 20).take 6) from by decide +kernel)
  have hdefining : ((((rereading 1).drop 10).drop 6).take 20).all fun moment =>
      !isDefining moment := by
    decide +kernel
  refine ⟨_, _, _, _, _, began, began', closing, closing', key, key', hparts, hfirst, hsecond, rfl,
    ?_, hresult, hresult', ?_⟩
  · intro moment hmoment d hd
    have hnot := List.all_eq_true.mp hdefining moment hmoment
    rw [isDefining, hd] at hnot
    cases hnot
  · show Bytes.ofInt 2 ≠ Bytes.ofInt 1
    decide

end Rereading

end Session

end Kotoba

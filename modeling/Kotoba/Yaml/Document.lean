import Kotoba.Step
import Kotoba.Yaml.Node
import Kotoba.Yaml.Stream

/-! From tokens to the tree of a document. -/
namespace Kotoba.Yaml

/-- A document being read: the tokens to come, what the handles of tags mean, the number of each
anchor that was met, the finished nodes that have anchors, and how many anchors and aliases there
were. -/
structure Draft where
  stream : Stream
  handles : List (String × String) := []
  anchors : List (String × Nat) := []
  anchored : List (Nat × Node) := []
  count : Nat := 0

abbrev Reading (α : Type) : Type := Step Draft Fault α

namespace Reading

def peek : Reading Token := fun d =>
  match d.stream.peek with
  | .ok (token, stream) => .ok token { d with stream }
  | .error fault => .error fault d

def skip : Reading Unit := Step.modify fun d => { d with stream := d.stream.tail }

def fail {α : Type} (cause : Structural) (start : Nat) (token : Token) : Reading α :=
  Step.fail (.structural cause start token.line)

def fresh : Reading Nat := Step.modifyGet fun d => (d.count, { d with count := d.count + 1 })

/-- Gives the name of an anchor, if there is one, to the node that starts here. -/
def declare : Option String → Reading (Option Nat)
  | none => pure none
  | some name => do
    let number ← fresh
    Step.modify fun d => { d with anchors := (name, number) :: d.anchors }
    pure (some number)

def finish (anchor : Option Nat) (node : Node) : Reading Node := do
  match anchor with
  | none => pure node
  | some number =>
    Step.modify fun d => { d with anchored := (number, node) :: d.anchored }
    pure node

def reference (name : String) (token : Token) : Reading Node := do
  match (← Step.gets Draft.anchors).lookup name with
  | none => Step.fail (.unknownAnchor name)
  | some anchor => pure (.reference name (← fresh) anchor (token.line + 1))

/-- What stands before the content of a node: an anchor and a tag, in either order. -/
structure Properties where
  anchor : Option String := none
  handle : String := ""
  suffix : Option String := none
  tagLine : Nat := 0

def tagNext (p : Properties) : Reading Properties := do
  let token ← peek
  match token.sign with
  | .tag handle suffix => do
    skip
    pure { p with handle, suffix := some suffix, tagLine := token.line }
  | _ => pure p

def anchorNext (p : Properties) : Reading Properties := do
  match (← peek).sign with
  | .anchor name => do skip; pure { p with anchor := some name }
  | _ => pure p

def properties : Reading Properties := do
  match (← peek).sign with
  | .anchor _ => do tagNext (← anchorNext {})
  | .tag _ _ => do anchorNext (← tagNext {})
  | _ => pure {}

/-- The whole tag of a node that starts in line `start`; its handle must have a meaning. -/
def tagOf (p : Properties) (start : Nat) : Reading (Option String) := do
  match p.suffix with
  | none => pure none
  | some suffix =>
    if p.handle = "" then pure (some suffix)
    else
      match (← Step.gets Draft.handles).lookup p.handle with
      | some meaning =>
        if meaning ++ suffix = "" then fail .undefinedHandle start ⟨.value, p.tagLine⟩
        else pure (some (meaning ++ suffix))
      | none => fail .undefinedHandle start ⟨.value, p.tagLine⟩

mutual

/-- `indentless` tells whether the items of a sequence may stand in the column of its parent. -/
def node : (fuel : Nat) → (block indentless : Bool) → Reading Node
  | 0, _, _ => Step.exhausted
  | fuel + 1, block, indentless => do
    let first ← peek
    match first.sign with
    | .reference name => do skip; reference name first
    | _ => do
      let properties ← properties
      let token ← peek
      let tag ← tagOf properties first.line
      let line := first.line + 1
      let sequence (items : Reading (List Node)) : Reading Node := do
        let anchor ← declare properties.anchor
        finish anchor (.sequence (← items) (tagOr "!!seq" tag) line)
      let mapping (entries : Reading (List (Node × Node))) : Reading Node := do
        let anchor ← declare properties.anchor
        finish anchor (.mapping (← entries) (tagOr "!!map" tag) line)
      let scalar (text : String) (style : Style) : Reading Node := do
        let anchor ← declare properties.anchor
        finish anchor (.scalar text (scalarTag text style tag) line)
      let other : Reading Node :=
        if properties.anchor.isSome || tag.any (· ≠ "") then scalar "" .plain
        else fail .missingContent first.line token
      match token.sign with
      | .scalar text style => do skip; scalar text style
      | .flowSequence => do skip; sequence (flowItems fuel true token.line)
      | .flowMapping => do skip; mapping (flowEntries fuel true token.line)
      | .item => if indentless then sequence (indentlessItems fuel) else other
      | .blockSequence =>
        if block then do skip; sequence (blockItems fuel token.line) else other
      | .blockMapping =>
        if block then do skip; mapping (blockEntries fuel token.line) else other
      | _ => other

def blockItems : (fuel : Nat) → (start : Nat) → Reading (List Node)
  | 0, _ => Step.exhausted
  | fuel + 1, start => do
    let token ← peek
    match token.sign with
    | .item => do
      skip
      let item ← match (← peek).sign with
        | .item | .blockEnd => pure (Node.empty (token.line + 1))
        | _ => node fuel true false
      return item :: (← blockItems fuel start)
    | .blockEnd => do skip; pure []
    | _ => fail .missingItem start token

/-- The items of a sequence in the column of its parent. -/
def indentlessItems : (fuel : Nat) → Reading (List Node)
  | 0 => Step.exhausted
  | fuel + 1 => do
    let token ← peek
    match token.sign with
    | .item => do
      skip
      let item ← match (← peek).sign with
        | .item | .key | .value | .blockEnd => pure (Node.empty (token.line + 1))
        | _ => node fuel true false
      return item :: (← indentlessItems fuel)
    | _ => pure []

def blockPart : (fuel : Nat) → (line : Nat) → Reading Node
  | 0, _ => Step.exhausted
  | fuel + 1, line => do
    match (← peek).sign with
    | .key | .value | .blockEnd => pure (Node.empty (line + 1))
    | _ => node fuel true true

def blockEntries : (fuel : Nat) → (start : Nat) → Reading (List (Node × Node))
  | 0, _ => Step.exhausted
  | fuel + 1, start => do
    let token ← peek
    match token.sign with
    | .key => do
      skip
      let key ← blockPart fuel token.line
      let next ← peek
      let value ← match next.sign with
        | .value => do skip; blockPart fuel next.line
        | _ => pure (Node.empty (next.line + 1))
      return (key, value) :: (← blockEntries fuel start)
    | .blockEnd => do skip; pure []
    | _ => fail .missingKey start token

def flowItems : (fuel : Nat) → (first : Bool) → (start : Nat) → Reading (List Node)
  | 0, _, _ => Step.exhausted
  | fuel + 1, first, start => do
    let token ← peek
    match token.sign with
    | .flowSequenceEnd => do skip; pure []
    | sign => do
      if !first then
        if sign == .comma then skip else fail .missingSequenceEnd start token
      let token ← peek
      match token.sign with
      | .flowSequenceEnd => do skip; pure []
      | .key => do
        skip
        let entry ← pair fuel
        return .mapping [entry] "!!map" (token.line + 1) :: (← flowItems fuel false start)
      | _ => do
        let item ← node fuel false false
        return item :: (← flowItems fuel false start)

/-- Where the key is missing the next sign is passed over. -/
def pair : (fuel : Nat) → Reading (Node × Node)
  | 0 => Step.exhausted
  | fuel + 1 => do
    let token ← peek
    let key ← match token.sign with
      | .value | .comma | .flowSequenceEnd => do skip; pure (Node.empty (token.line + 1))
      | _ => node fuel false false
    let token ← peek
    let value ← match token.sign with
      | .value => do
        skip
        match (← peek).sign with
        | .comma | .flowSequenceEnd => pure (Node.empty (token.line + 1))
        | _ => node fuel false false
      | _ => pure (Node.empty (token.line + 1))
    let _ ← peek
    pure (key, value)

def flowEntries : (fuel : Nat) → (first : Bool) → (start : Nat) → Reading (List (Node × Node))
  | 0, _, _ => Step.exhausted
  | fuel + 1, first, start => do
    let token ← peek
    match token.sign with
    | .flowMappingEnd => do skip; pure []
    | sign => do
      if !first then
        if sign == .comma then skip else fail .missingMappingEnd start token
      let token ← peek
      match token.sign with
      | .flowMappingEnd => do skip; pure []
      | .key => do
        skip
        let next ← peek
        let key ← match next.sign with
          | .value | .comma | .flowMappingEnd => pure (Node.empty (next.line + 1))
          | _ => node fuel false false
        let value ← flowValue fuel
        return (key, value) :: (← flowEntries fuel false start)
      | _ => do
        let key ← node fuel false false
        let next ← peek
        return (key, Node.empty (next.line + 1)) :: (← flowEntries fuel false start)

def flowValue : (fuel : Nat) → Reading Node
  | 0 => Step.exhausted
  | fuel + 1 => do
    let token ← peek
    match token.sign with
    | .value => do
      skip
      match (← peek).sign with
      | .comma | .flowMappingEnd => pure (Node.empty (token.line + 1))
      | _ => node fuel false false
    | _ => pure (Node.empty (token.line + 1))

end

/-- The directives before a document; `versioned` tells whether its version was given. -/
def directives : (fuel : Nat) → (versioned : Bool) → Reading Unit
  | 0, _ => Step.exhausted
  | fuel + 1, versioned => do
    let token ← peek
    match token.sign with
    | .version major minor => do
      if versioned then fail .repeatedVersion 0 token
      else if major ≠ 1 ∨ minor ≠ 1 then fail .incompatibleVersion 0 token
      else do skip; directives fuel true
    | .tagHandle handle meaning => do
      if ((← Step.gets Draft.handles).lookup handle).isSome then fail .repeatedHandle 0 token
      else do
        Step.modify fun d => { d with handles := d.handles ++ [(handle, meaning)] }
        skip
        directives fuel versioned
    | _ => pure ()

def usualHandles : List (String × String) := [("!", "!"), ("!!", "tag:yaml.org,2002:")]

/-- What follows the document is not read, except for the tokens that are looked at. -/
def root (fuel : Nat) : Reading (Option Node) := do
  match (← peek).sign with
  | .streamEnd => pure none
  | sign => do
    let explicit := match sign with
      | .version _ _ | .tagHandle _ _ | .documentStart => true
      | _ => false
    if explicit then directives fuel false
    Step.modify fun d => { d with handles := d.handles ++ usualHandles }
    if explicit then
      let token ← peek
      if token.sign ≠ .documentStart then fail .missingDocumentStart 0 token
      skip
    let token ← peek
    let node ← match explicit, token.sign with
      | true, .version _ _ | true, .tagHandle _ _ | true, .documentStart | true, .documentEnd
      | true, .streamEnd => pure (Node.empty (token.line + 1))
      | _, _ => node fuel true false
    let _ ← peek
    pure (some node)

end Reading

/-- The first document of a text, if there is one. Every production takes a token or is followed by
one that does, and there are fewer than six tokens for each character. -/
def read (text : Bytes) : Except Fault (Option Document) :=
  let source := Source.ofBytes text
  let stream : Stream := {
    cursor := { rest := source.chars }
    ending := source.ending
    marked := source.chars.head? = some '\ufeff' }
  match Reading.root (20 * (source.chars.length + 4)) { stream } with
  | .ok root d => .ok (root.map fun root => ⟨root, d.anchored⟩)
  | .error fault _ => .error fault
  | .exhausted => .ok none

end Kotoba.Yaml

import Kotoba.Yaml.Meaning
import Kotoba.Yaml.Token

/-! YAML documents as trees. -/
namespace Kotoba.Yaml

/-- A node with its tag and the number of the line it starts in, from one. An alias has a number of
its own and the number of the node it stands for. -/
inductive Node where
  | scalar (text tag : String) (line : Nat)
  | sequence (items : List Node) (tag : String) (line : Nat)
  | mapping (entries : List (Node × Node)) (tag : String) (line : Nat)
  | reference (name : String) (number anchor line : Nat)

namespace Node

def line : Node → Nat
  | scalar _ _ line | sequence _ _ line | mapping _ _ line | reference _ _ _ line => line

def empty (line : Nat) : Node := .scalar "" "!!null" line

end Node

/-- The short form of a tag: two exclamation marks stand for the usual namespace. -/
def shortTag (tag : String) : String :=
  let usual := "tag:yaml.org,2002:".toList
  if usual.isPrefixOf tag.toList then "!!" ++ String.ofList (tag.toList.drop usual.length) else tag

def tagOr (usual : String) (given : Option String) : String :=
  match given with
  | none => usual
  | some tag => if tag = "" ∨ tag = "!" then usual else shortTag tag

def scalarTag (text : String) (style : Style) (given : Option String) : String :=
  tagOr (match style with
    | .plain => (Meaning.ofPlain true text).tag
    | .quoted => "!!str") given

structure Document where
  root : Node
  anchored : List (Nat × Node)

/-- What a node stands for: itself, or the node it is an alias of. -/
def Document.resolve (d : Document) : Node → Node
  | .reference name number anchor line =>
    (d.anchored.lookup anchor).getD (.reference name number anchor line)
  | node => node

end Kotoba.Yaml

import Clipper.Text.Casing
import Clipper.Vocabulary.Dialect

/-!
Reserved words. A word is reserved in every case of its letters; some words have
further spellings, among them the dotted ones of the logical values.
-/

namespace Clipper

inductive Keyword
  | kwFunction | kwStatic | kwClass | kwMethod | kwData | kwFrom
  | kwLocal | kwPublic | kwPrivate
  | kwReturn | kwIf | kwElseIf | kwElse | kwWhile | kwDo | kwFor | kwTo | kwStep
  | kwEndIf | kwEndDo | kwNext | kwEndClass | kwEndFunction | kwEndMethod
  | kwTrue | kwFalse | kwNil | kwSelf
  deriving DecidableEq, Repr

namespace Keyword

inductive Category
  | declaration | controlFlow | terminator | literal | receiver
  deriving DecidableEq, Repr

def all : List Keyword :=
  [kwFunction, kwStatic, kwClass, kwMethod, kwData, kwFrom, kwLocal, kwPublic, kwPrivate,
   kwReturn, kwIf, kwElseIf, kwElse, kwWhile, kwDo, kwFor, kwTo, kwStep,
   kwEndIf, kwEndDo, kwNext, kwEndClass, kwEndFunction, kwEndMethod,
   kwTrue, kwFalse, kwNil, kwSelf]

def canonical : Keyword → String
  | kwFunction => "Function"
  | kwStatic => "Static"
  | kwClass => "Class"
  | kwMethod => "Method"
  | kwData => "Data"
  | kwFrom => "From"
  | kwLocal => "Local"
  | kwPublic => "Public"
  | kwPrivate => "Private"
  | kwReturn => "Return"
  | kwIf => "If"
  | kwElseIf => "ElseIf"
  | kwElse => "Else"
  | kwWhile => "While"
  | kwDo => "Do"
  | kwFor => "For"
  | kwTo => "To"
  | kwStep => "Step"
  | kwEndIf => "EndIf"
  | kwEndDo => "EndDo"
  | kwNext => "Next"
  | kwEndClass => "EndClass"
  | kwEndFunction => "EndFunction"
  | kwEndMethod => "EndMethod"
  | kwTrue => "True"
  | kwFalse => "False"
  | kwNil => "Nil"
  | kwSelf => "Self"

def aliases : Keyword → List String
  | kwEndDo => ["EndWhile"]
  | kwEndFunction => ["EndFunc"]
  | kwTrue => [".T.", ".Y."]
  | kwFalse => [".F.", ".N."]
  | _ => []

def spellings (k : Keyword) : List String := k.canonical :: k.aliases

def category : Keyword → Category
  | kwFunction | kwStatic | kwClass | kwMethod | kwData | kwFrom
  | kwLocal | kwPublic | kwPrivate => .declaration
  | kwReturn | kwIf | kwElseIf | kwElse | kwWhile | kwDo | kwFor | kwTo | kwStep => .controlFlow
  | kwEndIf | kwEndDo | kwNext | kwEndClass | kwEndFunction | kwEndMethod => .terminator
  | kwTrue | kwFalse | kwNil => .literal
  | kwSelf => .receiver

def origin : Keyword → Dialect
  | kwClass | kwMethod | kwData | kwFrom | kwEndClass | kwEndMethod | kwSelf => .harbour
  | kwEndFunction => .advpl
  | _ => .clipper

/-- The keyword with exactly this spelling. -/
def ofSpelling? (s : String) : Option Keyword := all.find? fun k => k.spellings.contains s

/-- The keyword a word stands for, in any case of its letters. -/
def ofWord? (s : String) : Option Keyword := all.find? fun k => k.spellings.any (Text.sameWord · s)

/-- Words that begin an expression: the literals, the receiver and the words that
open a conditional or a loop. -/
def startsExpression (k : Keyword) : Bool :=
  match k.category with
  | .literal | .receiver => true
  | .controlFlow => [kwIf, kwWhile, kwDo, kwFor].contains k
  | .declaration | .terminator => false

theorem mem_all (k : Keyword) : k ∈ all := by
  cases k <;> decide

end Keyword

end Clipper

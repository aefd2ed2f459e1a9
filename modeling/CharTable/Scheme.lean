import CharTable.Model
import CharTable.Packed
import CharTable.Table
import CharTable.Table.Initializer

/-!
The character classes of a Scheme lexer: its tags, the rules that spread them over the bytes, the
flag values under which the lexer reads them, and a report of how it classifies a text, byte by
byte.
-/
namespace CharTable.Scheme

namespace Flags

def classMask : UInt8 := 7

def whitespace : UInt8 := 1
def initial : UInt8 := 2
def peculiar : UInt8 := 3
def digit : UInt8 := 4
def utf8 : UInt8 := 5

def subsequent : UInt8 := 8
def signSubsequent : UInt8 := 16
def dotSubsequent : UInt8 := 32
def delimiter : UInt8 := 64

end Flags

def declarations : List Declaration := [
  .atomic "SUBSEQUENT" "CC::Subsequent",
  .atomic "DELIMITER" "CC::Delimiter",
  .atomic "WHITESPACE_CLASS" "CC::WhitespaceClass",
  .composite "WHITESPACE" ["WHITESPACE_CLASS", "DELIMITER"],
  .atomic "UTF8" "CC::UTF8Class",
  .atomic "PECULIAR_IDENT" "CC::PeculiarIdentClass",
  .atomic "DOT_SUBSEQUENT" "CC::DotSubsequent",
  .atomic "SIGN_SUBSEQUENT_FLAG" "CC::SignSubsequent",
  .composite "SIGN_SUBSEQUENT" ["SIGN_SUBSEQUENT_FLAG", "DOT_SUBSEQUENT"],
  .atomic "INITIAL_CLASS" "CC::InitialClass",
  .composite "INITIAL" ["INITIAL_CLASS", "SIGN_SUBSEQUENT"],
  .atomic "DIGIT" "CC::DigitClass"]

def model : Except Fault Model := Model.ofDeclarations declarations

def identifierSpecials : String := "!$%&*/:<=>?^_~"

def rules : List Rule := [
  .range "INITIAL" (.char 'a') (.char 'z'),
  .range "INITIAL" (.char 'A') (.char 'Z'),
  .ofString "INITIAL" (identifierSpecials ++ "@"),
  .range "SUBSEQUENT" (.char 'a') (.char 'z'),
  .range "SUBSEQUENT" (.char 'A') (.char 'Z'),
  .ofString "SUBSEQUENT" identifierSpecials,
  .range "SUBSEQUENT" (.char '0') (.char '9'),
  .ofString "SUBSEQUENT" "+-.@",
  .ofString "WHITESPACE" " \n\r\x0b\t",
  .ofString "PECULIAR_IDENT" "+-.",
  .ofString "SIGN_SUBSEQUENT" "+-@",
  .ofString "DOT_SUBSEQUENT" ".",
  .range "DIGIT" (.char '0') (.char '9'),
  .ofString "DELIMITER" "|()[]\x7b\x7d\";",
  .range "UTF8" (.code 128) (.code 255)]

def flagEntries : List (String × Flag) := [
  ("CC::WhitespaceClass", .ofClass Flags.whitespace),
  ("CC::InitialClass", .ofClass Flags.initial),
  ("CC::PeculiarIdentClass", .ofClass Flags.peculiar),
  ("CC::DigitClass", .ofClass Flags.digit),
  ("CC::UTF8Class", .ofClass Flags.utf8),
  ("CC::Subsequent", .bit Flags.subsequent),
  ("CC::SignSubsequent", .bit Flags.signSubsequent),
  ("CC::DotSubsequent", .bit Flags.dotSubsequent),
  ("CC::Delimiter", .bit Flags.delimiter)]

def encoding : Except Fault Encoding := Encoding.ofEntries Flags.classMask flagEntries

inductive Stage where
  | model
  | rules
  | encoding
  | packing
deriving DecidableEq, Repr

def Stage.text : Stage → String
  | model => "invalid scheme category model"
  | rules => "applying scheme char-class rules"
  | encoding => "invalid scheme flag encoding"
  | packing => "packing scheme char table"

structure StageFault where
  stage : Stage
  fault : Fault
deriving DecidableEq, Repr

def StageFault.message (f : StageFault) : String := f.stage.text ++ ": " ++ f.fault.message

def atStage {α : Type} (stage : Stage) (result : Except Fault α) : Except StageFault α :=
  result.mapError (⟨stage, ·⟩)

def table : Except StageFault Table := do
  let m ← atStage .model model
  atStage .rules (Table.ofRules m rules)

def pack (t : Table) : Except StageFault Packed := do
  let e ← atStage .encoding encoding
  atStage .packing (Packed.ofTable t e)

def text : Except StageFault String := table.map Table.render

end CharTable.Scheme

namespace CharTable.Packed
open Scheme

def isSubsequent (p : Packed) (b : UInt8) : Bool := p.test b Flags.subsequent
def isSignSubsequent (p : Packed) (b : UInt8) : Bool := p.test b Flags.signSubsequent
def isDotSubsequent (p : Packed) (b : UInt8) : Bool := p.test b Flags.dotSubsequent
def isDelimiter (p : Packed) (b : UInt8) : Bool := p.test b Flags.delimiter

end CharTable.Packed

namespace CharTable.Scheme

def className (v : UInt8) : String :=
  if v = Flags.whitespace then "white"
  else if v = Flags.initial then "initial"
  else if v = Flags.peculiar then "peculiar"
  else if v = Flags.digit then "digit"
  else if v = Flags.utf8 then "utf8"
  else "-"

def shownByte (b : UInt8) : String :=
  let shown :=
    if 33 ≤ b ∧ b ≤ 126 then ['\x27', Char.ofNat b.toNat, '\x27'] else ("0x" ++ Hex.byte b).toList
  String.ofList (shown.leftpad 6 ' ')

private def yesNo (b : Bool) : String := if b then "1" else "0"

def reportLine (p : Packed) (b : UInt8) : String :=
  shownByte b ++ "  " ++ String.ofList ((className (p.classOf b)).toList.rightpad 8 ' ') ++
    "  sub=" ++ yesNo (p.isSubsequent b) ++ " sign=" ++ yesNo (p.isSignSubsequent b) ++
    " dot=" ++ yesNo (p.isDotSubsequent b) ++ " delim=" ++ yesNo (p.isDelimiter b)

def report (p : Packed) (source : String) : String :=
  "BYTES:\n" ++ String.join ((Utf8.encode source).map fun b => reportLine p b ++ "\n")

def sample : String := "(define (f x) (+ x 1.5)) ; λ"

def sampleReport : Except StageFault String := do
  let p ← pack (← table)
  return report p sample

end CharTable.Scheme

namespace NestedViews.Snapshot

/-- Why bytes are no text: some cannot continue the character before them, or the last character
is cut off. The index is that of the first byte of the character. -/
inductive TextFault
  | invalid (length index : Nat)
  | incomplete (index : Nat)
  deriving DecidableEq, Repr

inductive Fault
  | endOfInput
  | endOfText
  | text (fault : TextFault)
  | optionTag (tag : Nat)
  | typeNumber (number : Nat)
  deriving DecidableEq, Repr

def TextFault.message : TextFault → String
  | .invalid length index => s!"invalid utf-8 sequence of {length} bytes from index {index}"
  | .incomplete index => s!"incomplete utf-8 byte sequence from index {index}"

def Fault.message : Fault → String
  | .endOfInput => "io error: unexpected end of file"
  | .endOfText => "io error: "
  | .text fault => s!"string is not valid utf8: {fault.message}"
  | .optionTag tag => s!"tag for enum is not valid, found {tag}"
  | .typeNumber number =>
    s!"invalid value: integer `{number}`, expected variant index 0 <= i < 6"

end NestedViews.Snapshot

namespace NestedViews.Text

def digits (n : Nat) : List Char :=
  Nat.toDigits 10 n

def number (ds : List Char) : Nat :=
  Nat.ofDigitChars 10 ds 0

@[simp] theorem number_digits (n : Nat) : number (digits n) = n :=
  Nat.ofDigitChars_toDigits (by decide) (by decide)

theorem isDigit_of_mem_digits {n : Nat} {c : Char} (h : c ∈ digits n) : c.isDigit :=
  Nat.isDigit_of_mem_toDigits (by decide) (by decide) h

theorem digits_ne_nil (n : Nat) : digits n ≠ [] := by
  rw [digits, Nat.toDigits_eq_if (by decide)]
  split <;> simp

def paddedDigits (width n : Nat) : List Char :=
  List.replicate (width - (digits n).length) '0' ++ digits n

def signedDigits (n : Int) : List Char :=
  if n < 0 then '-' :: digits n.natAbs else digits n.natAbs

def spanDigits (cs : List Char) : List Char × List Char :=
  (cs.takeWhile Char.isDigit, cs.dropWhile Char.isDigit)

def splitSign : List Char → Bool × List Char
  | '-' :: cs => (true, cs)
  | '+' :: cs => (false, cs)
  | cs => (false, cs)

def readNat? (cs : List Char) : Option Nat :=
  if cs ≠ [] ∧ cs.all Char.isDigit then some (number cs) else none

theorem readNat?_digits (n : Nat) : readNat? (digits n) = some n := by
  have h : (digits n).all Char.isDigit := List.all_eq_true.2 fun c hc => isDigit_of_mem_digits hc
  simp [readNat?, digits_ne_nil, h]

def readInt? (cs : List Char) : Option Int :=
  (readNat? (splitSign cs).2).map fun n => if (splitSign cs).1 then -(n : Int) else n

theorem splitSign_digits (n : Nat) : splitSign (digits n) = (false, digits n) := by
  cases h : digits n with
  | nil => exact absurd h (digits_ne_nil n)
  | cons c cs =>
    have hc : c.isDigit := isDigit_of_mem_digits (n := n) (h ▸ List.mem_cons_self)
    unfold splitSign
    split <;> simp_all

theorem readInt?_signedDigits (n : Int) : readInt? (signedDigits n) = some n := by
  by_cases hn : n < 0
  · have habs : -(n.natAbs : Int) = n := by omega
    rw [signedDigits, if_pos hn, readInt?, splitSign, readNat?_digits]
    exact congrArg some habs
  · have habs : (n.natAbs : Int) = n := by omega
    rw [signedDigits, if_neg hn, readInt?, splitSign_digits, readNat?_digits]
    exact congrArg some habs

def takeDigits? (count : Nat) (cs : List Char) : Option (Nat × List Char) :=
  let ds := cs.take count
  if ds.length = count ∧ ds.all Char.isDigit then some (number ds, cs.drop count) else none

end NestedViews.Text

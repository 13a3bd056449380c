/-!
Labels beyond ASCII, spelled in ASCII: first the characters that are ASCII, then where each of the
others is put in, from the lowest to the highest.
-/
namespace LanguageService.Uri.Punycode

def digit (d : Nat) : Char :=
  if d < 26 then Char.ofNat (97 + d) else Char.ofNat (22 + d)

def digitValue? (c : Char) : Option Nat :=
  if 'a' ≤ c ∧ c ≤ 'z' then some (c.toNat - 97)
  else if '0' ≤ c ∧ c ≤ '9' then some (c.toNat - 22)
  else none

def threshold (k bias : Nat) : Nat :=
  if k ≤ bias then 1 else if bias + 26 ≤ k then 26 else k - bias

theorem threshold_pos (k bias : Nat) : 0 < threshold k bias := by
  unfold threshold
  split
  · omega
  · split <;> omega

def shrink (delta k : Nat) : Nat × Nat :=
  if 455 < delta then shrink (delta / 35) (k + 36) else (delta, k)
termination_by delta
decreasing_by omega

def adapt (delta points : Nat) (first : Bool) : Nat :=
  let d := if first then delta / 700 else delta / 2
  let (d, k) := shrink (d + d / points) 0
  k + 36 * d / (d + 38)

def digits (bias k q : Nat) : List Char :=
  let t := threshold k bias
  if q < t then [digit q]
  else digit (t + (q - t) % (36 - t)) :: digits bias (k + 36) ((q - t) / (36 - t))
termination_by q
decreasing_by
  have hpos := threshold_pos k bias
  have hle := Nat.div_le_self (q - threshold k bias) (36 - threshold k bias)
  omega

structure Progress where
  out : List Char
  delta : Nat
  bias : Nat
  done : Nat

def scanChar (basic point : Nat) (p : Progress) (c : Char) : Progress :=
  if c.toNat < point then { p with delta := p.delta + 1 }
  else if c.toNat = point then
    { out := p.out ++ digits p.bias 36 p.delta
      delta := 0
      bias := adapt p.delta (p.done + 1) (p.done == basic)
      done := p.done + 1 }
  else p

def scanPoints (label : List Char) (basic : Nat) : List Nat → Nat → Progress → Progress
  | [], _, p => p
  | point :: points, next, p =>
      let p := { p with delta := p.delta + (point - next) * (p.done + 1) }
      let p := label.foldl (scanChar basic point) p
      scanPoints label basic points (point + 1) { p with delta := p.delta + 1 }

def isBasic (c : Char) : Bool := c.toNat < 0x80

def encode (label : List Char) : List Char :=
  let basic := label.filter isBasic
  let points := ((label.filter (!isBasic ·)).map Char.toNat).eraseDups.mergeSort
  let start := if basic.isEmpty then [] else basic ++ ['-']
  (scanPoints label basic.length points 0x80 ⟨start, 0, 72, basic.length⟩).out

/-- A label as far as it is read. The number that is being read started from `start` and goes on
with digits of `weight`. -/
structure Reading where
  out : List Char
  point : Nat
  index : Nat
  bias : Nat
  start : Nat
  k : Nat
  weight : Nat

namespace Reading

def insert? (r : Reading) : Option Reading :=
  let count := r.out.length + 1
  let point := r.point + r.index / count
  let spot := r.index % count
  if point.isValidChar then
    some
      { out := r.out.insertIdx spot (Char.ofNat point)
        point
        index := spot + 1
        bias := adapt (r.index - r.start) count (r.start == 0)
        start := spot + 1
        k := 36
        weight := 1 }
  else none

def add? (r : Reading) (c : Char) : Option Reading := do
  let d ← digitValue? c
  let t := threshold r.k r.bias
  let r' := { r with index := r.index + d * r.weight }
  if d < t then r'.insert?
  else return { r' with k := r.k + 36, weight := r.weight * (36 - t) }

def finish? (r : Reading) : Option (List Char) := if r.k = 36 then some r.out else none

end Reading

/-- The last hyphen ends what is ASCII. One at the start ends nothing. -/
def decode? (label : List Char) : Option (List Char) := do
  let tail := (label.reverse.takeWhile (· != '-')).reverse
  let basic := label.take (label.length - tail.length - 1)
  let tail := if basic.isEmpty then label else tail
  let r ← tail.foldlM Reading.add? ⟨basic, 0x80, 0, 72, 0, 36, 1⟩
  r.finish?

def toAscii (label : List Char) : List Char :=
  if label.all isBasic then label else ['x', 'n', '-', '-'] ++ encode label

end LanguageService.Uri.Punycode

import LanguageService.Proofs.Positions
import Mathlib.Algebra.Group.Nat.Defs
import Mathlib.Data.List.DropRight

/-!
Positions by an index of lines. The index keeps where each line of a text starts; an offset is
moved back to the start of its character, bisection finds the line it is on, and only that line is
read up to it. Reading the text from its start on gives the same positions.
-/
namespace LanguageService.Text

def startsFrom (start : Nat) : List Char → List Nat
  | [] => []
  | c :: cs =>
      if c = '\n' then (start + c.utf8Size) :: startsFrom (start + c.utf8Size) cs
      else startsFrom (start + c.utf8Size) cs

def isBoundary (cs : List Char) (o : Nat) : Bool := (dropBytes o cs).isSome

def backUp (cs : List Char) : Nat → Nat
  | 0 => 0
  | n + 1 => if isBoundary cs (n + 1) then n + 1 else backUp cs n

def bisect (xs : List Nat) (x base size : Nat) : Option Nat :=
  if 1 < size then
    xs[base + size / 2]?.bind fun y =>
      if x < y then bisect xs x base (size - size / 2)
      else bisect xs x (base + size / 2) (size - size / 2)
  else some base
termination_by size

def binarySearch (xs : List Nat) (x : Nat) : Option (Except Nat Nat) :=
  if xs.length = 0 then some (.error 0)
  else do
    let base ← bisect xs x 0 xs.length
    let y ← xs[base]?
    return if y = x then .ok base else if y < x then .error (base + 1) else .error base

structure LineIndex where
  lineStarts : List Nat
  length : Nat

namespace LineIndex

def new (cs : List Char) : LineIndex := ⟨0 :: startsFrom 0 cs, bytes cs⟩

/-- The position of an offset in 32-bit numbers, where every index and slice that it takes is in
range. -/
def lineColumn? (index : LineIndex) (cs : List Char) (offset : Nat) : Option LineColumn := do
  let stop := backUp cs (min offset index.length)
  let found ← binarySearch index.lineStarts stop
  let line := match found with
    | .ok line => line
    | .error line => line - 1
  let start ← index.lineStarts[line]?
  let s ← slice start stop cs
  return ⟨line % 2 ^ 32, units s % 2 ^ 32⟩

end LineIndex

variable {cs before s t after : List Char} {o : Nat}

theorem exists_of_dropBytes (h : dropBytes o cs = some t) : ∃ s, cs = s ++ t ∧ bytes s = o := by
  fun_induction dropBytes o cs with
  | case1 cs =>
      cases h
      exact ⟨[], rfl, rfl⟩
  | case2 => cases h
  | case3 n c cs hle ih =>
      obtain ⟨s, rfl, hs⟩ := ih h
      refine ⟨c :: s, rfl, ?_⟩
      rw [bytes]
      omega
  | case4 => cases h

theorem isBoundary_iff : isBoundary cs o ↔ ∃ s, s <+: cs ∧ bytes s = o := by
  rw [isBoundary, Option.isSome_iff_exists]
  constructor
  · rintro ⟨t, ht⟩
    obtain ⟨s, rfl, hs⟩ := exists_of_dropBytes ht
    exact ⟨s, List.prefix_append s t, hs⟩
  · rintro ⟨s, ⟨t, rfl⟩, rfl⟩
    exact ⟨t, dropBytes_append s t⟩

section Fitting

theorem bytes_le_of_isPrefix (h : s <+: cs) : bytes s ≤ bytes cs := by
  obtain ⟨t, rfl⟩ := h
  exact bytes_append s t ▸ Nat.le_add_right _ _

theorem fitting_isPrefix_self (n : Nat) (cs : List Char) : fitting n cs <+: cs := by
  induction cs generalizing n with
  | nil => exact List.prefix_rfl
  | cons c cs ih =>
      rw [fitting]
      split
      · exact List.cons_prefix_cons.mpr ⟨rfl, ih _⟩
      · exact List.nil_prefix

theorem bytes_fitting_le (n : Nat) (cs : List Char) : bytes (fitting n cs) ≤ n := by
  induction cs generalizing n with
  | nil => exact Nat.zero_le n
  | cons c cs ih =>
      rw [fitting]
      split
      · next hle =>
          have hrest := ih (n - c.utf8Size)
          rw [bytes]
          omega
      · exact Nat.zero_le n

theorem isPrefix_fitting (h : s <+: cs) (hle : bytes s ≤ o) : s <+: fitting o cs := by
  induction s generalizing o cs with
  | nil => exact List.nil_prefix
  | cons c s ih =>
      obtain ⟨d, ds, rfl⟩ := List.exists_cons_of_ne_nil (List.IsPrefix.ne_nil h (by simp))
      obtain ⟨rfl, hs⟩ := List.cons_prefix_cons.mp h
      rw [bytes] at hle
      rw [fitting, if_pos (by omega)]
      exact List.cons_prefix_cons.mpr ⟨rfl, ih hs (by omega)⟩

theorem fitting_min (o : Nat) (cs : List Char) : fitting (min o (bytes cs)) cs = fitting o cs := by
  have hle := bytes_le_of_isPrefix (fitting_isPrefix_self o cs)
  have hfits := isPrefix_fitting (fitting_isPrefix_self o cs)
    (Nat.le_min.mpr ⟨bytes_fitting_le o cs, hle⟩)
  exact (fitting_isPrefix (Nat.min_le_left _ _) cs).eq_of_length_le hfits.length_le

theorem fitting_bytes (h : s <+: cs) : fitting (bytes s) cs = s := by
  have hs := isPrefix_fitting h (Nat.le_refl _)
  have hle := prefix_of_bytes_le (fitting_isPrefix_self _ cs) h (bytes_fitting_le _ cs)
  exact hle.eq_of_length_le hs.length_le

theorem backUp_eq (cs : List Char) (n : Nat) : backUp cs n = bytes (fitting n cs) := by
  induction n with
  | zero => exact (Nat.le_zero.mp (bytes_fitting_le 0 cs)).symm
  | succ n ih =>
      rw [backUp]
      split
      · next hboundary =>
          obtain ⟨s, hs, hbytes⟩ := isBoundary_iff.mp hboundary
          rw [← hbytes, fitting_bytes hs]
      · next hboundary =>
          have hne : bytes (fitting (n + 1) cs) ≠ n + 1 := fun heq =>
            hboundary (isBoundary_iff.mpr ⟨_, fitting_isPrefix_self _ _, heq⟩)
          have hle := bytes_fitting_le (n + 1) cs
          have hlonger := isPrefix_fitting (o := n) (fitting_isPrefix_self (n + 1) cs) (by omega)
          have hshorter := fitting_isPrefix (Nat.le_succ n) cs
          rw [ih, hshorter.eq_of_length_le hlonger.length_le]

end Fitting

section Search

variable {xs : List Nat} {x k : Nat}

theorem bisect_eq (hk : ∀ i y, xs[i]? = some y → (y ≤ x ↔ i < k)) {base size : Nat}
    (hbase : base < k) (hsize : k ≤ base + size) (hin : base + size ≤ xs.length) :
    bisect xs x base size = some (k - 1) := by
  fun_induction bisect xs x base size with
  | case1 base size hlarge ihleft ihright =>
      have hmid : base + size / 2 < xs.length := by omega
      have hget := List.getElem?_eq_getElem hmid
      have hiff := hk _ _ hget
      rw [hget, Option.bind_some]
      split
      · next hlt => exact ihleft hbase (by omega) (by omega)
      · next hle => exact ihright (by omega) (by omega) (by omega)
  | case2 base size hsmall =>
      rw [show base = k - 1 by omega]

theorem binarySearch_eq (hk : ∀ i y, xs[i]? = some y → (y ≤ x ↔ i < k)) (hpos : 0 < k)
    (hle : k ≤ xs.length) :
    binarySearch xs x = some (.ok (k - 1)) ∨ binarySearch xs x = some (.error k) := by
  have hget : xs[k - 1]? = some xs[k - 1] := List.getElem?_eq_getElem (by omega)
  have hlast := (hk _ _ hget).mpr (by omega)
  have hbisect : bisect xs x 0 xs.length = some (k - 1) :=
    bisect_eq hk hpos (by omega) (by omega)
  rw [binarySearch, if_neg (by omega), hbisect]
  simp only [bind, pure, Option.bind_some, hget]
  rcases Nat.lt_or_eq_of_le hlast with hlt | heq
  · right
    rw [if_neg (Nat.ne_of_lt hlt), if_pos hlt, Nat.sub_add_cancel hpos]
  · left
    rw [if_pos heq]

end Search

section Starts

theorem startsFrom_append (start : Nat) (s t : List Char) :
    startsFrom start (s ++ t) = startsFrom start s ++ startsFrom (start + bytes s) t := by
  induction s generalizing start with
  | nil => rfl
  | cons c s ih =>
      rw [List.cons_append, startsFrom, startsFrom, ih, bytes, Nat.add_assoc]
      split <;> rfl

theorem length_startsFrom (start : Nat) (s : List Char) :
    (startsFrom start s).length = s.count '\n' := by
  induction s generalizing start with
  | nil => rfl
  | cons c s ih =>
      rw [startsFrom, List.count_cons]
      split
      · next hc => simp [hc, ih]
      · next hc => simp [hc, ih]

theorem startsFrom_of_notMem (h : '\n' ∉ s) (start : Nat) : startsFrom start s = [] :=
  List.length_eq_zero_iff.mp ((length_startsFrom start s).trans (List.count_eq_zero.mpr h))

theorem mem_startsFrom {start y : Nat} (h : y ∈ startsFrom start s) :
    start < y ∧ y ≤ start + bytes s := by
  induction s generalizing start with
  | nil => cases h
  | cons c s ih =>
      have hpos := c.utf8Size_pos
      rw [bytes]
      rw [startsFrom] at h
      split at h
      · rcases List.mem_cons.mp h with rfl | h
        · omega
        · have hrest := ih h
          omega
      · have hrest := ih h
        omega

theorem getElem?_startsFrom (h : Complete before) :
    (0 :: startsFrom 0 before)[before.count '\n']? = some (bytes before) := by
  rcases List.eq_nil_or_concat' before with rfl | ⟨s, c, rfl⟩
  · rfl
  · obtain rfl : c = '\n' := h c (by simp)
    have hlength := length_startsFrom 0 s
    rw [startsFrom_append, bytes_append, List.count_append, List.count_singleton_self,
      List.getElem?_cons_succ, List.getElem?_append_right (by omega), hlength, Nat.sub_self]
    simp [startsFrom, bytes]

theorem starts_le_iff (before : List Char) (hs : '\n' ∉ s) (after : List Char) (i y : Nat)
    (hy : (0 :: startsFrom 0 (before ++ (s ++ after)))[i]? = some y) :
    y ≤ bytes (before ++ s) ↔ i < before.count '\n' + 1 := by
  have hlength : (0 :: startsFrom 0 before).length = before.count '\n' + 1 :=
    congrArg (· + 1) (length_startsFrom 0 before)
  rw [startsFrom_append, startsFrom_append, startsFrom_of_notMem hs, List.nil_append,
    ← List.cons_append] at hy
  rw [bytes_append, ← hlength]
  rcases Nat.lt_or_ge i (0 :: startsFrom 0 before).length with hlt | hge
  · rw [List.getElem?_append_left hlt] at hy
    rcases List.mem_cons.mp (List.mem_of_getElem? hy) with rfl | hmem
    · exact iff_of_true (Nat.zero_le _) hlt
    · have hle := (mem_startsFrom hmem).2
      omega
  · rw [List.getElem?_append_right hge] at hy
    have hlt := (mem_startsFrom (List.mem_of_getElem? hy)).1
    omega

end Starts

section Positions

theorem rtakeWhile_line (hbefore : Complete before) (hs : '\n' ∉ s) :
    (before ++ s).rtakeWhile (· ≠ '\n') = s := by
  have hresumes : Resumes before.reverse := fun c hc =>
    hbefore c (by rwa [List.head?_reverse] at hc)
  rw [List.rtakeWhile, List.reverse_append, takeWhile_line (by simpa using hs) hresumes,
    List.reverse_reverse]

theorem foldl_origin (s : List Char) :
    s.foldl LineColumn.advance .origin = ⟨s.count '\n', units (s.rtakeWhile (· ≠ '\n'))⟩ := by
  obtain ⟨before, s, rfl, hbefore, hs⟩ := exists_line s
  rw [List.foldl_append, foldl_of_complete hbefore, foldl_of_notMem hs, rtakeWhile_line hbefore hs,
    List.count_append, List.count_eq_zero.mpr hs, Nat.zero_add, Nat.add_zero]

theorem lineColumn_eq (cs : List Char) (o : Nat) :
    lineColumn cs o =
      ⟨(fitting o cs).count '\n', units ((fitting o cs).rtakeWhile (· ≠ '\n'))⟩ := by
  rw [lineColumn, lineColumnFrom_eq_foldl, foldl_origin]

theorem LineIndex.lineColumn?_eq_mod (cs : List Char) (o : Nat) :
    (LineIndex.new cs).lineColumn? cs o =
      some ⟨(lineColumn cs o).line % 2 ^ 32, (lineColumn cs o).column % 2 ^ 32⟩ := by
  obtain ⟨before, s, hfitting, hbefore, hs⟩ := exists_line (fitting o cs)
  obtain ⟨after, hcs'⟩ := fitting_isPrefix_self o cs
  rw [hfitting, List.append_assoc] at hcs'
  have hposition : lineColumn cs o = ⟨before.count '\n', units s⟩ := by
    rw [lineColumn_eq, hfitting, rtakeWhile_line hbefore hs, List.count_append,
      List.count_eq_zero.mpr hs, Nat.add_zero]
  have hstop : backUp cs (min o (bytes cs)) = bytes (before ++ s) := by
    rw [backUp_eq, fitting_min, hfitting]
  have hstart : (0 :: startsFrom 0 cs)[before.count '\n']? = some (bytes before) := by
    have hlast := getElem?_startsFrom hbefore
    rw [← hcs', startsFrom_append, ← List.cons_append,
      List.getElem?_append_left (List.getElem?_eq_some_iff.mp hlast).1, hlast]
  have hslice : slice (bytes before) (bytes (before ++ s)) cs = some s := by
    rw [← hcs', bytes_append, slice_append]
  have hsearch := binarySearch_eq (hcs' ▸ starts_le_iff before hs after) (Nat.zero_lt_succ _)
    (Nat.succ_le_of_lt (List.getElem?_eq_some_iff.mp hstart).1)
  rw [LineIndex.lineColumn?, LineIndex.new, hposition]
  dsimp only
  rw [hstop]
  rcases hsearch with hsearch | hsearch <;>
    simp only [hsearch, bind, pure, Option.bind_some, Nat.succ_sub_one, hstart, hslice]

theorem LineIndex.lineColumn?_eq (hcs : bytes cs < 2 ^ 32) (o : Nat) :
    (LineIndex.new cs).lineColumn? cs o = some (lineColumn cs o) := by
  have hsmall := line_add_column_le cs o
  rw [LineIndex.lineColumn?_eq_mod, Nat.mod_eq_of_lt (by omega), Nat.mod_eq_of_lt (by omega)]

theorem units_pos (h : s ≠ []) : 0 < units s := by
  obtain ⟨c, s, rfl⟩ := List.exists_cons_of_ne_nil h
  exact Nat.lt_of_lt_of_le (charUnits_pos c) (Nat.le_add_right _ _)

theorem lineColumn_lt_or {a b : Nat} (h : a ≤ b) (cs : List Char) :
    (between a b cs = [] ∧ lineColumn cs a = lineColumn cs b) ∨
      (lineColumn cs a).lt (lineColumn cs b) := by
  by_cases hbetween : between a b cs = []
  · left
    refine ⟨hbetween, ?_⟩
    rw [lineColumn_of_le h, hbetween, List.foldl_nil]
  · right
    obtain ⟨hline, hcolumn⟩ := lineColumn_le h cs
    have hunits := units_pos hbetween
    rcases Nat.lt_or_eq_of_le hline with hlt | heq
    · simp [LineColumn.lt, hlt]
    · have hlt : (lineColumn cs a).column < (lineColumn cs b).column := by
        rw [hcolumn heq]
        omega
      simp [LineColumn.lt, heq, hlt]

theorem between_ne_nil {a b : Nat} (h : a < b) (ha : isBoundary cs a) (hb : isBoundary cs b) :
    between a b cs ≠ [] := by
  obtain ⟨s, hs, rfl⟩ := isBoundary_iff.mp ha
  obtain ⟨t, ht, rfl⟩ := isBoundary_iff.mp hb
  intro hnil
  obtain ⟨u, rfl⟩ := prefix_of_bytes_le hs ht (Nat.le_of_lt h)
  rw [between, fitting_bytes hs, fitting_bytes ht, List.drop_left] at hnil
  subst hnil
  simp at h

/-- The position of an offset is that of the longest beginning of the text up to it, and positions
are in the order of their offsets. -/
theorem index_finds_positions (hcs : bytes cs < 2 ^ 32) :
    (∀ o, ∃ pre, pre <+: cs ∧ bytes pre ≤ min o (bytes cs) ∧
      (∀ s, s <+: cs → bytes s ≤ min o (bytes cs) → s <+: pre) ∧
      lineColumn cs o = ⟨pre.count '\n', units (pre.rtakeWhile (· ≠ '\n'))⟩ ∧
      (LineIndex.new cs).lineColumn? cs o = some (lineColumn cs o)) ∧
    (∀ a b, a ≤ b → lineColumn cs a = lineColumn cs b ∨ (lineColumn cs a).lt (lineColumn cs b)) ∧
    ∀ a b, a < b → isBoundary cs a → isBoundary cs b → (lineColumn cs a).lt (lineColumn cs b) := by
  refine ⟨fun o => ⟨fitting o cs, fitting_isPrefix_self o cs, ?_, ?_, lineColumn_eq cs o,
    LineIndex.lineColumn?_eq hcs o⟩, fun a b h => ?_, fun a b h ha hb => ?_⟩
  · exact Nat.le_min.mpr ⟨bytes_fitting_le o cs, bytes_le_of_isPrefix (fitting_isPrefix_self o cs)⟩
  · exact fun s hs hle => isPrefix_fitting hs (Nat.le_trans hle (Nat.min_le_left _ _))
  · exact (lineColumn_lt_or h cs).imp_left And.right
  · refine (lineColumn_lt_or (Nat.le_of_lt h) cs).resolve_left fun hnone => ?_
    exact between_ne_nil h ha hb hnone.1

def mixedText : List Char := "a\r\né😀\nz".toList

theorem mixedText_positions :
    bytes mixedText < 2 ^ 32 ∧
    (LineIndex.new mixedText).lineColumn? mixedText 7 = some ⟨1, 1⟩ ∧
    (LineIndex.new mixedText).lineColumn? mixedText 9 = some ⟨1, 3⟩ ∧
    isBoundary mixedText 5 ∧ isBoundary mixedText 10 ∧
    (lineColumn mixedText 5).lt (lineColumn mixedText 10) := by
  have hsmall : bytes mixedText < 2 ^ 32 := by decide +kernel
  obtain ⟨hpositions, -, hstrict⟩ := index_finds_positions hsmall
  obtain ⟨-, -, -, -, -, hinside⟩ := hpositions 7
  obtain ⟨-, -, -, -, -, hafter⟩ := hpositions 9
  have hinside' : lineColumn mixedText 7 = ⟨1, 1⟩ := by decide +kernel
  have hafter' : lineColumn mixedText 9 = ⟨1, 3⟩ := by decide +kernel
  have hstart : isBoundary mixedText 5 := by decide +kernel
  have hstop : isBoundary mixedText 10 := by decide +kernel
  exact ⟨hsmall, hinside' ▸ hinside, hafter' ▸ hafter, hstart, hstop,
    hstrict 5 10 (by decide) hstart hstop⟩

end Positions
end LanguageService.Text

import LanguageService.Proofs.TokenRules
import LanguageService.Source
import LanguageService.Utf8
import Mathlib.Data.List.Pairwise

/-!
Where the lexemes of a text stand: each on characters of its own, one after another, on just those
that spell it, and with nothing but blanks between them.
-/
namespace LanguageService

namespace Text

theorem bytes_pos {s : List Char} (h : s ≠ []) : 0 < bytes s := by
  cases s with
  | nil => exact absurd rfl h
  | cons c cs => exact Nat.add_pos_left c.utf8Size_pos _

theorem bytes_eq_utf8Len (s : List Char) : bytes s = String.utf8Len s := by
  induction s with
  | nil => rfl
  | cons c cs ih => rw [bytes, ih, String.utf8Len_cons, Nat.add_comm]

theorem bytes_toList (text : String) : bytes text.toList = text.utf8ByteSize := by
  rw [bytes_eq_utf8Len, ← String.utf8ByteSize_ofList, String.ofList_toList]

theorem dropBytes_append (s t : List Char) : dropBytes (bytes s) (s ++ t) = some t := by
  induction s with
  | nil => simp [bytes, dropBytes]
  | cons c cs ih =>
      obtain ⟨n, hn⟩ := Nat.exists_eq_add_one.mpr c.utf8Size_pos
      have hbytes : bytes (c :: cs) = n + bytes cs + 1 := by
        rw [bytes]
        omega
      have hrest : n + bytes cs + 1 - c.utf8Size = bytes cs := by omega
      rw [hbytes, List.cons_append, dropBytes, if_pos (by omega), hrest, ih]

theorem takeBytes_append (s t : List Char) : takeBytes (bytes s) (s ++ t) = some s := by
  induction s with
  | nil => simp [bytes, takeBytes]
  | cons c cs ih =>
      obtain ⟨n, hn⟩ := Nat.exists_eq_add_one.mpr c.utf8Size_pos
      have hbytes : bytes (c :: cs) = n + bytes cs + 1 := by
        rw [bytes]
        omega
      have hrest : n + bytes cs + 1 - c.utf8Size = bytes cs := by omega
      rw [hbytes, List.cons_append, takeBytes, if_pos (by omega), hrest, ih]
      rfl

theorem slice_append (s t u : List Char) :
    slice (bytes s) (bytes s + bytes t) (s ++ (t ++ u)) = some t := by
  rw [slice, if_pos (Nat.le_add_right _ _), dropBytes_append, Option.bind_some,
    Nat.add_sub_cancel_left, takeBytes_append]

end Text

namespace Utf8

theorem encode_cons (c : Char) (cs : List Char) :
    encode (c :: cs) = String.utf8EncodeChar c ++ encode cs := List.flatMap_cons

theorem encode_append (cs ds : List Char) : encode (cs ++ ds) = encode cs ++ encode ds :=
  List.flatMap_append

theorem length_encode (cs : List Char) : (encode cs).length = Text.bytes cs := by
  induction cs with
  | nil => rfl
  | cons c cs ih =>
      rw [encode_cons, List.length_append, String.length_utf8EncodeChar, ih, Text.bytes]

end Utf8

namespace Lexer

theorem blank_byte {c : Char} {b : UInt8} (hc : isBlank c) (hb : b ∈ String.utf8EncodeChar c) :
    b ∈ ([0x20, 0x09, 0x0D, 0x0A, 0x0C] : List UInt8) := by
  simp only [isBlank, Bool.or_eq_true, beq_iff_eq, or_assoc] at hc
  rcases hc with rfl | rfl | rfl | rfl | rfl <;> revert b <;> decide +kernel

inductive Lexes : Nat → List Char → List Lexeme → Prop where
  | nil {start : Nat} : Lexes start [] []
  | blank {start : Nat} {c : Char} {cs : List Char} {xs : List Lexeme} :
      isBlank c → Lexes (start + c.utf8Size) cs xs → Lexes start (c :: cs) xs
  | word {start : Nat} {t : Token} {w cs : List Char} {xs : List Lexeme} :
      Picks (w ++ cs) t w → Lexes (start + Text.bytes w) cs xs →
      Lexes start (w ++ cs) (⟨t, start, start + Text.bytes w⟩ :: xs)

theorem scanFrom_lexes (start n : Nat) (cs : List Char) :
    Lexes (start + Text.bytes (cs.take n)) (cs.drop n) (scanFrom start n cs) := by
  fun_induction scanFrom start n cs with
  | case1 => simpa [Text.bytes] using Lexes.nil
  | case2 start n c cs ih => simpa [Text.bytes, Nat.add_assoc] using ih
  | case3 start c cs hblank ih => exact .blank hblank (by simpa [Text.bytes] using ih)
  | case4 start c cs hblank token word hfirst ih =>
      have hpicks := first_picks cs (Bool.eq_false_iff.mpr hblank)
      rw [hfirst] at hpicks
      obtain ⟨rest, hrest⟩ := hpicks.isPrefix
      -- the characters that belong to the word are those that are skipped next
      obtain ⟨d, word, rfl⟩ := List.exists_cons_of_ne_nil hpicks.ne_nil
      obtain ⟨rfl, rfl⟩ := List.cons.inj hrest
      exact .word (w := d :: word) hpicks (by simpa [Text.bytes, Nat.add_assoc] using ih)

theorem scan_lexes (text : List Char) : Lexes 0 text (scan text) := by
  simpa [scan, Text.bytes] using scanFrom_lexes 0 0 text

structure StandsOn (start : Nat) (text : List Char) (x : Lexeme) (before w after : List Char) :
    Prop where
  text_eq : text = before ++ (w ++ after)
  start_eq : x.start = start + Text.bytes before
  stop_eq : x.stop = x.start + Text.bytes w
  picks : Picks (w ++ after) x.token w

namespace Lexes

variable {start : Nat} {text : List Char} {xs : List Lexeme}

theorem standsOn (h : Lexes start text xs) :
    ∀ x ∈ xs, ∃ before w after, StandsOn start text x before w after := by
  induction h with
  | nil => simp
  | @blank start c cs xs _ _ ih =>
      intro x hx
      obtain ⟨before, w, after, hs⟩ := ih x hx
      refine ⟨c :: before, w, after, by rw [hs.text_eq]; rfl, ?_, hs.stop_eq, hs.picks⟩
      rw [hs.start_eq, Text.bytes, Nat.add_assoc]
  | @word start t v cs xs hpicks _ ih =>
      intro x hx
      rcases List.mem_cons.mp hx with rfl | hx
      · exact ⟨[], v, cs, rfl, rfl, rfl, hpicks⟩
      · obtain ⟨before, w, after, hs⟩ := ih x hx
        refine ⟨v ++ before, w, after, ?_, ?_, hs.stop_eq, hs.picks⟩
        · rw [hs.text_eq, List.append_assoc]
        · rw [hs.start_eq, Text.bytes_append, Nat.add_assoc]

theorem pairwise (h : Lexes start text xs) : xs.Pairwise fun x y => x.stop ≤ y.start := by
  induction h with
  | nil => exact .nil
  | blank _ _ ih => exact ih
  | word _ hrest ih =>
      refine .cons (fun y hy => ?_) ih
      obtain ⟨before, w, after, hs⟩ := hrest.standsOn y hy
      rw [hs.start_eq]
      exact Nat.le_add_right _ _

theorem blank_outside (h : Lexes start text xs) {o : Nat} {b : UInt8}
    (hb : (Utf8.encode text)[o]? = some b)
    (hout : ∀ x ∈ xs, start + o < x.start ∨ x.stop ≤ start + o) :
    b ∈ ([0x20, 0x09, 0x0D, 0x0A, 0x0C] : List UInt8) := by
  induction h generalizing o with
  | nil => simp [Utf8.encode] at hb
  | @blank start c cs xs hc _ ih =>
      rcases Nat.lt_or_ge o c.utf8Size with hlt | hle
      · rw [Utf8.encode_cons, List.getElem?_append_left (by simpa using hlt)] at hb
        exact blank_byte hc (List.mem_of_getElem? hb)
      · obtain ⟨k, rfl⟩ := Nat.exists_eq_add_of_le hle
        rw [Utf8.encode_cons, List.getElem?_append_right (by simp)] at hb
        exact ih (by simpa using hb) (by simpa [Nat.add_assoc] using hout)
  | @word start t w cs xs hpicks _ ih =>
      obtain ⟨hhead, hrest⟩ := List.forall_mem_cons.mp hout
      have hle : Text.bytes w ≤ o := by
        simp only at hhead
        omega
      obtain ⟨k, rfl⟩ := Nat.exists_eq_add_of_le hle
      rw [Utf8.encode_append, List.getElem?_append_right (by simp [Utf8.length_encode])] at hb
      exact ih (by simpa [Utf8.length_encode] using hb) (by simpa [Nat.add_assoc] using hrest)

end Lexes

namespace StandsOn

variable {start : Nat} {text before w after : List Char} {x : Lexeme}
  (h : StandsOn start text x before w after)

include h

theorem start_lt_stop : x.start < x.stop := by
  have hw := Text.bytes_pos h.picks.ne_nil
  have hstop := h.stop_eq
  omega

end StandsOn

theorem scan_pairwise (text : List Char) :
    (scan text).Pairwise fun x y => x.stop ≤ y.start :=
  (scan_lexes text).pairwise

theorem tokens_pairwise (text : List Char) :
    (tokens text).Pairwise fun x y => x.stop ≤ y.start :=
  (scan_pairwise text).filter _

def StandsIn (text : List Char) (x : Lexeme) : Prop :=
  ∃ before w after, StandsOn 0 text x before w after

theorem standsIn_of_mem_scan {text : List Char} {x : Lexeme} (hx : x ∈ scan text) :
    StandsIn text x :=
  (scan_lexes text).standsOn x hx

theorem standsIn_of_mem_tokens {text : List Char} {x : Lexeme} (hx : x ∈ tokens text) :
    StandsIn text x :=
  standsIn_of_mem_scan (List.mem_of_mem_filter hx)

theorem merge_filter (p : Lexeme → Bool) {xs : List Lexeme}
    (h : xs.Pairwise fun x y => x.start < y.start) :
    (xs.filter (!p ·)).merge (xs.filter p) (fun x y => x.start ≤ y.start) = xs := by
  induction xs with
  | nil => simp
  | cons x xs ih =>
      obtain ⟨hx, hxs⟩ := List.pairwise_cons.mp h
      have hrest := ih hxs
      cases hp : p x with
      | false =>
          rw [List.filter_cons_of_pos (by simp [hp]), List.filter_cons_of_neg (by simp [hp])]
          cases hB : xs.filter p with
          | nil => simpa [hB] using hrest
          | cons y ys =>
              have hy : x.start ≤ y.start :=
                Nat.le_of_lt (hx y (List.mem_of_mem_filter (hB ▸ List.mem_cons_self)))
              rw [List.cons_merge_cons_pos _ _ _ (by simpa using hy), ← hB, hrest]
      | true =>
          rw [List.filter_cons_of_neg (by simp [hp]), List.filter_cons_of_pos hp]
          cases hA : xs.filter (!p ·) with
          | nil => simpa [hA] using hrest
          | cons y ys =>
              have hy : ¬ y.start ≤ x.start :=
                Nat.not_le.mpr (hx y (List.mem_of_mem_filter (hA ▸ List.mem_cons_self)))
              rw [List.cons_merge_cons_neg _ _ _ (by simpa using hy), ← hA, hrest]

theorem scan_starts (text : List Char) : (scan text).Pairwise fun x y => x.start < y.start := by
  refine (scan_pairwise text).imp_of_mem fun hx _ hle => ?_
  obtain ⟨before, w, after, hs⟩ := standsIn_of_mem_scan hx
  exact Nat.lt_of_lt_of_le hs.start_lt_stop hle

theorem merge_tokens_comments (text : List Char) :
    (tokens text).merge (comments text) (fun x y => x.start ≤ y.start) = scan text :=
  merge_filter _ (scan_starts text)

theorem comments_starts (text : List Char) :
    (comments text).Pairwise fun x y => x.start < y.start :=
  (scan_starts text).filter _

theorem start_ne_of_comment {text : List Char} {x y : Lexeme} (hx : x ∈ tokens text)
    (hy : y ∈ comments text) : x.start ≠ y.start := by
  obtain ⟨hxs, hplain⟩ := List.mem_filter.mp hx
  obtain ⟨hys, hcomment⟩ := List.mem_filter.mp hy
  have hne : x ≠ y := by
    rintro rfl
    simp [hcomment] at hplain
  have : Std.Symm fun x y : Lexeme => x.start ≠ y.start := ⟨fun _ _ => Ne.symm⟩
  exact ((scan_starts text).imp Nat.ne_of_lt).forall hxs hys hne

/-- Lexemes partition a text where they stand apart, each on a word within a line, and what is left
over is blank. -/
structure Partitions (text : List Char) (xs : List Lexeme) : Prop where
  increasing : xs.Pairwise fun x y => x.stop ≤ y.start
  words : ∀ x ∈ xs, ∃ before w after, StandsOn 0 text x before w after ∧
    x.start < x.stop ∧ '\n' ∉ w
  blank : ∀ o b, (Utf8.encode text)[o]? = some b → (∀ x ∈ xs, o < x.start ∨ x.stop ≤ o) →
    b ∈ ([0x20, 0x09, 0x0D, 0x0A, 0x0C] : List UInt8)

theorem lexing_partitions (text : List Char) :
    Partitions text ((tokens text).merge (comments text) fun x y => x.start ≤ y.start) ∧
    (∀ x ∈ tokens text, ∃ before w after, StandsOn 0 text x before w after ∧
      (x.token.isError = false → x.token.display = String.ofList w) ∧
      (x.token.isError → Unmatched (w ++ after) ∧ ((∃ c, w = [c]) ∨
        ∃ body, w = '"' :: body ∧ Inside body ∧
          ∀ b, Inside b → '"' :: b <+: w ++ after → b.length ≤ body.length))) ∧
    ∀ x ∈ comments text, ∃ before w after, StandsOn 0 text x before w after ∧
      ['/', '/'] <+: w ∧ '\n' ∉ w ∧ (after = [] ∨ after.head? = some '\n') := by
  refine ⟨?_, fun x hx => ?_, fun x hx => ?_⟩
  · rw [merge_tokens_comments]
    refine ⟨scan_pairwise text, fun x hx => ?_, fun o b hb hout => ?_⟩
    · obtain ⟨before, w, after, hs⟩ := standsIn_of_mem_scan hx
      exact ⟨before, w, after, hs, hs.start_lt_stop, hs.picks.newline_notMem⟩
    · exact (scan_lexes text).blank_outside hb (by simpa using hout)
  · obtain ⟨before, w, after, hs⟩ := standsIn_of_mem_tokens hx
    exact ⟨before, w, after, hs, hs.picks.display, hs.picks.error⟩
  · obtain ⟨hscan, hcomment⟩ := List.mem_filter.mp hx
    obtain ⟨before, w, after, hs⟩ := standsIn_of_mem_scan hscan
    obtain ⟨hslashes, hline⟩ := hs.picks.comment hcomment
    exact ⟨before, w, after, hs, hslashes, hs.picks.newline_notMem, hline⟩

end Lexer

namespace Lexer.StandsIn

variable {text : String} {x : Lexeme} (h : StandsIn text.toList x)

include h

theorem start_lt_stop : x.start < x.stop := by
  obtain ⟨before, w, after, hs⟩ := h
  exact hs.start_lt_stop

theorem stop_le : x.stop ≤ text.utf8ByteSize := by
  obtain ⟨before, w, after, htext, hstart, hstop, -⟩ := h
  rw [← Text.bytes_toList, htext, Text.bytes_append, Text.bytes_append]
  omega

theorem site_text {f : File} (hf : f.text = text) (ht : x.token.isError = false) :
    (Site.mk f x.start x.stop).text = x.token.display := by
  obtain ⟨before, w, after, htext, hstart, hstop, hpicks⟩ := h
  rw [Site.text, hf, htext, hstop, hstart, Nat.zero_add, Text.slice_append, hpicks.display ht]
  rfl

end Lexer.StandsIn

end LanguageService

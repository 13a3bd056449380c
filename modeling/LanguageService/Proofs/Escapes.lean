import LanguageService.Uri

namespace LanguageService.Uri

theorem of_ascii {P : Char → Prop} (h : ∀ n : Fin 128, P (Char.ofNat n)) {c : Char}
    (hc : c.toNat < 128) : P c := by
  simpa using h ⟨c.toNat, hc⟩

theorem hexValue?_hexDigit {n : Nat} (hn : n < 16) : hexValue? (hexDigit n) = some n := by
  have h : ∀ k : Fin 16, hexValue? (hexDigit k) = some k.val := by decide
  exact h ⟨n, hn⟩

def isEscape (c : Char) : Bool := c == '%' || (List.range 16).any fun n => c == hexDigit n

structure IsEscaping (set : Char → Bool) : Prop where
  escapes : ∀ c, isEscape c = true → set c = false
  controls : ∀ c, isControl c = true → set c = true

theorem isEscape_cases {c : Char} (h : isEscape c = true) : c = '%' ∨ ∃ n < 16, c = hexDigit n := by
  simpa [isEscape] using h

theorem isEscape_of_mem_encodeByte {b : UInt8} {c : Char} (hc : c ∈ encodeByte b) :
    isEscape c = true := by
  have hb : b.toNat < 256 := b.toNat_lt
  simp only [encodeByte, List.mem_cons, List.not_mem_nil, or_false] at hc
  simp only [isEscape, Bool.or_eq_true, beq_iff_eq, List.any_eq_true, List.mem_range]
  rcases hc with rfl | rfl | rfl
  · exact .inl rfl
  · exact .inr ⟨_, by omega, rfl⟩
  · exact .inr ⟨_, by omega, rfl⟩

theorem isEscaping_of {set : Char → Bool} (h : ∀ n < 16, set (hexDigit n) = false)
    (hmark : set '%' = false) (hcontrols : ∀ c, isControl c = true → set c = true) :
    IsEscaping set where
  escapes := by
    intro c hc
    rcases isEscape_cases hc with rfl | ⟨n, hn, rfl⟩
    · exact hmark
    · exact h n hn
  controls := hcontrols

theorem isControl_escaping : IsEscaping isControl :=
  isEscaping_of (by decide) (by decide) fun _ h => h

theorem fragmentSet_escaping : IsEscaping fragmentSet :=
  isEscaping_of (by decide) (by decide) fun _ h => by simp [fragmentSet, h]

theorem pathSet_escaping : IsEscaping pathSet :=
  isEscaping_of (by decide) (by decide) fun _ h => by simp [pathSet, fragmentSet, h]

theorem userinfoSet_escaping : IsEscaping userinfoSet :=
  isEscaping_of (by decide) (by decide) fun _ h => by simp [userinfoSet, pathSet, fragmentSet, h]

def querySetOf (k : SchemeKind) : Char → Bool := if k.isSpecial then specialQuerySet else querySet

theorem querySetOf_escaping (k : SchemeKind) : IsEscaping (querySetOf k) := by
  rw [querySetOf]
  split
  · exact isEscaping_of (by decide) (by decide) fun _ h => by simp [specialQuerySet, querySet, h]
  · exact isEscaping_of (by decide) (by decide) fun _ h => by simp [querySet, h]

section Encode

variable {set : Char → Bool} {cs : List Char} {c : Char}

theorem mem_encode (hc : c ∈ encode set cs) : (c ∈ cs ∧ set c = false) ∨ isEscape c = true := by
  obtain ⟨x, hx, hc⟩ := List.mem_flatMap.mp hc
  rw [encodeChar] at hc
  split at hc
  · obtain ⟨b, -, hc⟩ := List.mem_flatMap.mp hc
    exact .inr (isEscape_of_mem_encodeByte hc)
  · next hset =>
      obtain rfl := List.mem_singleton.mp hc
      exact .inl ⟨hx, eq_false_of_ne_true hset⟩

theorem IsEscaping.of_mem_encode (h : IsEscaping set) (hc : c ∈ encode set cs) : set c = false := by
  rcases mem_encode hc with ⟨-, hc⟩ | hc
  · exact hc
  · exact h.escapes c hc

theorem encode_cons (set : Char → Bool) (c : Char) (cs : List Char) :
    encode set (c :: cs) = encodeChar set c ++ encode set cs := List.flatMap_cons

theorem encode_of_forall (h : ∀ c ∈ cs, set c = false) : encode set cs = cs := by
  induction cs with
  | nil => rfl
  | cons c cs ih =>
      have hc : encodeChar set c = [c] := if_neg (by simp [h c])
      rw [encode_cons, hc, ih fun x hx => h x (List.mem_cons_of_mem c hx), List.singleton_append]

theorem exists_utf8EncodeChar (c : Char) : ∃ b bs, String.utf8EncodeChar c = b :: bs := by
  cases hbytes : String.utf8EncodeChar c with
  | nil =>
      have hlength := String.length_utf8EncodeChar c
      rw [hbytes] at hlength
      exact absurd hlength (Nat.ne_of_lt c.utf8Size_pos)
  | cons b bs => exact ⟨b, bs, rfl⟩

theorem encodeChar_cases (set : Char → Bool) (c : Char) :
    encodeChar set c = [c] ∨ ∃ cs, encodeChar set c = '%' :: cs := by
  rw [encodeChar]
  split
  · obtain ⟨b, bs, hbytes⟩ := exists_utf8EncodeChar c
    exact .inr ⟨_, by rw [hbytes, List.flatMap_cons, encodeByte, List.cons_append]⟩
  · exact .inl rfl

theorem head_encode (hc : (encode set cs).head? = some c) : cs.head? = some c ∨ c = '%' := by
  cases cs with
  | nil => cases hc
  | cons x cs =>
      rw [encode_cons] at hc
      rcases encodeChar_cases set x with h | ⟨rest, h⟩ <;> rw [h] at hc
      · exact .inl hc
      · exact .inr (Option.some.inj hc).symm

theorem encode_eq_nil : encode set cs = [] ↔ cs = [] := by
  refine ⟨fun h => ?_, fun h => by rw [h]; rfl⟩
  cases cs with
  | nil => rfl
  | cons c cs =>
      rw [encode_cons] at h
      rcases encodeChar_cases set c with hc | ⟨rest, hc⟩ <;> simp [hc] at h

theorem IsEscaping.isIgnored (h : IsEscaping set) (hc : set c = false) : isIgnored c = false := by
  refine eq_false_of_ne_true fun hignored => ?_
  have hcontrol : isControl c = true := by
    simp only [Uri.isIgnored, Bool.or_eq_true, beq_iff_eq] at hignored
    rcases hignored with (rfl | rfl) | rfl <;> decide
  simp [h.controls c hcontrol] at hc

theorem shown_of_forall (h : ∀ c ∈ cs, isIgnored c = false) : shown cs = cs :=
  List.filter_eq_self.mpr fun c hc => by simp [h c hc]

end Encode

section Names

theorem decode_cons {c : Char} (hc : c ≠ '%') (cs : List Char) :
    decode (c :: cs) = String.utf8EncodeChar c ++ decode cs := by
  rw [decode]
  rintro a b cs rfl
  exact absurd rfl hc

theorem decode_slash (cs : List Char) : decode ('/' :: cs) = Path.slash :: decode cs :=
  decode_cons (by decide) cs

theorem decode_escape {a b : Char} {m n : Nat} (ha : hexValue? a = some m)
    (hb : hexValue? b = some n) (cs : List Char) :
    decode ('%' :: a :: b :: cs) = UInt8.ofNat (m * 16 + n) :: decode cs := by
  rw [decode, ha, hb]

theorem decode_encodeByte (b : UInt8) (cs : List Char) :
    decode (encodeByte b ++ cs) = b :: decode cs := by
  have hb : b.toNat < 256 := b.toNat_lt
  have hvalue : b.toNat / 16 * 16 + b.toNat % 16 = b.toNat := by omega
  have hdecode := decode_escape (hexValue?_hexDigit (n := b.toNat / 16) (by omega))
    (hexValue?_hexDigit (n := b.toNat % 16) (by omega)) cs
  rwa [hvalue, UInt8.ofNat_toNat] at hdecode

theorem plain_of_segmentSet {b : UInt8} (h : segmentSet (Char.ofNat b.toNat) = false) :
    Char.ofNat b.toNat ≠ '%' ∧ String.utf8EncodeChar (Char.ofNat b.toNat) = [b] := by
  have hall : ∀ n : Fin 256, segmentSet (Char.ofNat n) = false →
      Char.ofNat n ≠ '%' ∧ String.utf8EncodeChar (Char.ofNat n) = [UInt8.ofNat n] := by
    decide +kernel
  simpa using hall ⟨b.toNat, b.toNat_lt⟩ h

theorem decode_encodeName (name : Bytes) (cs : List Char) :
    decode (encodeName name ++ cs) = name ++ decode cs := by
  induction name with
  | nil => rfl
  | cons b name ih =>
      rw [encodeName, List.flatMap_cons, List.append_assoc]
      simp only
      split
      · rw [decode_encodeByte]
        exact congrArg (b :: ·) ih
      · next hset =>
          obtain ⟨hmark, hbyte⟩ := plain_of_segmentSet (eq_false_of_ne_true hset)
          rw [List.cons_append, List.nil_append, decode_cons hmark, hbyte]
          exact congrArg (b :: ·) ih

theorem mem_encodeName {name : Bytes} {c : Char} (hc : c ∈ encodeName name) :
    segmentSet c = false ∨ isEscape c = true := by
  obtain ⟨b, -, hc⟩ := List.mem_flatMap.mp hc
  simp only at hc
  split at hc
  · exact .inr (isEscape_of_mem_encodeByte hc)
  · next hset =>
      obtain rfl := List.mem_singleton.mp hc
      exact .inl (eq_false_of_ne_true hset)

theorem decode_encodeName_self (name : Bytes) : decode (encodeName name) = name := by
  have h : decode (encodeName name ++ []) = name ++ [] := decode_encodeName name []
  rwa [List.append_nil, List.append_nil] at h

end Names

end LanguageService.Uri

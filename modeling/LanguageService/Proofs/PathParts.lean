import LanguageService.Path

namespace LanguageService

namespace Path

def IsName (n : Bytes) : Prop := slash ∉ n ∧ n ≠ [] ∧ n ≠ [dot]

theorem split_ne_nil (p : Bytes) : split p ≠ [] := by
  cases p with
  | nil => exact List.cons_ne_nil _ _
  | cons b bs =>
      simp only [split]
      split
      · simp
      · split <;> simp

theorem exists_split_cons (b : UInt8) (bs : Bytes) : ∃ w ws, split bs = w :: ws ∧
    split (b :: bs) = if b = slash then [] :: w :: ws else (b :: w) :: ws := by
  obtain ⟨w, ws, h⟩ := List.exists_cons_of_ne_nil (split_ne_nil bs)
  exact ⟨w, ws, h, by rw [split, h]⟩

theorem split_cons_slash (p : Bytes) : split (slash :: p) = [] :: split p := by
  obtain ⟨w, ws, h, hslash⟩ := exists_split_cons slash p
  rw [hslash, if_pos rfl, h]

theorem split_cons_of_ne {b : UInt8} {bs w : Bytes} {ws : List Bytes} (hb : b ≠ slash)
    (h : split bs = w :: ws) : split (b :: bs) = (b :: w) :: ws := by
  obtain ⟨v, vs, h', hother⟩ := exists_split_cons b bs
  cases h'.symm.trans h
  rw [hother, if_neg hb]

theorem slash_notMem_of_mem_split {p n : Bytes} (hn : n ∈ split p) : slash ∉ n := by
  induction p generalizing n with
  | nil =>
      obtain rfl : n = [] := List.mem_singleton.mp hn
      simp
  | cons b bs ih =>
      obtain ⟨w, ws, h, hsplit⟩ := exists_split_cons b bs
      rw [h] at ih
      rw [hsplit] at hn
      split at hn
      · rcases List.mem_cons.mp hn with rfl | hn
        · simp
        · exact ih hn
      · next hb =>
          rcases List.mem_cons.mp hn with rfl | hn
          · have hw := ih (n := w) (by simp)
            simp only [List.mem_cons, not_or]
            exact ⟨fun h => hb h.symm, hw⟩
          · exact ih (List.mem_cons_of_mem w hn)

theorem mem_split {p : Bytes} {b : UInt8} (hb : b ∈ p) : b = slash ∨ ∃ n ∈ split p, b ∈ n := by
  induction p with
  | nil => simp at hb
  | cons a bs ih =>
      obtain ⟨w, ws, h, hsplit⟩ := exists_split_cons a bs
      rw [h] at ih
      rw [hsplit]
      split
      · next ha =>
          rcases List.mem_cons.mp hb with rfl | hb
          · exact .inl ha
          · rcases ih hb with hb | ⟨n, hn, hmem⟩
            · exact .inl hb
            · exact .inr ⟨n, List.mem_cons_of_mem _ hn, hmem⟩
      · rcases List.mem_cons.mp hb with rfl | hb
        · exact .inr ⟨b :: w, by simp, by simp⟩
        · rcases ih hb with hb | ⟨n, hn, hmem⟩
          · exact .inl hb
          · rcases List.mem_cons.mp hn with rfl | hn
            · exact .inr ⟨a :: n, by simp, by simp [hmem]⟩
            · exact .inr ⟨n, List.mem_cons_of_mem _ hn, hmem⟩

theorem mem_of_mem_split {p n : Bytes} {b : UInt8} (hn : n ∈ split p) (hb : b ∈ n) : b ∈ p := by
  induction p generalizing n with
  | nil =>
      obtain rfl : n = [] := List.mem_singleton.mp hn
      exact absurd hb List.not_mem_nil
  | cons a bs ih =>
      obtain ⟨w, ws, h, hsplit⟩ := exists_split_cons a bs
      rw [h] at ih
      rw [hsplit] at hn
      split at hn
      · rcases List.mem_cons.mp hn with rfl | hn
        · exact absurd hb List.not_mem_nil
        · exact List.mem_cons_of_mem a (ih hn hb)
      · rcases List.mem_cons.mp hn with rfl | hn
        · rcases List.mem_cons.mp hb with rfl | hb
          · exact List.mem_cons_self
          · exact List.mem_cons_of_mem a (ih (by simp) hb)
        · exact List.mem_cons_of_mem a (ih (List.mem_cons_of_mem w hn) hb)

theorem split_append_slash {n : Bytes} (hn : slash ∉ n) (p : Bytes) :
    split (n ++ slash :: p) = n :: split p := by
  induction n with
  | nil => exact split_cons_slash p
  | cons b bs ih =>
      simp only [List.mem_cons, not_or] at hn
      exact split_cons_of_ne (Ne.symm hn.1) (ih hn.2)

theorem split_of_notMem {n : Bytes} (hn : slash ∉ n) : split n = [n] := by
  induction n with
  | nil => rfl
  | cons b bs ih =>
      simp only [List.mem_cons, not_or] at hn
      exact split_cons_of_ne (Ne.symm hn.1) (ih hn.2)

theorem split_names {names : List Bytes} (hne : names ≠ []) (h : ∀ n ∈ names, slash ∉ n) :
    split (names.flatMap (slash :: ·)) = [] :: names := by
  induction names with
  | nil => exact absurd rfl hne
  | cons n names ih =>
      rw [List.flatMap_cons, List.cons_append, split_cons_slash]
      have hn := h n (by simp)
      cases names with
      | nil => simp [split_of_notMem hn]
      | cons m names =>
          have htail := ih (by simp) fun x hx => h x (List.mem_cons_of_mem n hx)
          rw [List.flatMap_cons, List.cons_append, split_cons_slash, List.cons.injEq] at htail
          rw [List.flatMap_cons, List.cons_append, split_append_slash hn, htail.2]

theorem split_ofNames {names : List Bytes} (h : ∀ n ∈ names, slash ∉ n) :
    split (ofNames names) = [] :: (if names = [] then [[]] else names) := by
  rw [ofNames]
  cases names with
  | nil => rfl
  | cons n names => exact split_names (by simp) h

theorem head_ofNames (names : List Bytes) : (ofNames names).head? = some slash := by
  cases names <;> simp [ofNames]

theorem parts_ofNames {names : List Bytes} (h : ∀ n ∈ names, IsName n) :
    parts (ofNames names) = ⟨true, names⟩ := by
  have hfilter : names.filter (fun n => !n.isEmpty && n != [dot]) = names := by
    refine List.filter_eq_self.mpr fun n hn => ?_
    simpa using ⟨(h n hn).2.1, (h n hn).2.2⟩
  simp only [parts, head_ofNames, split_ofNames fun n hn => (h n hn).1]
  cases names with
  | nil => rfl
  | cons n names => simpa using hfilter

theorem spelled_of_mem_parts {p : Path} {n : Bytes} (hn : n ∈ (parts p).names) :
    slash ∉ n ∧ n ≠ [] := by
  have hkept {m : Bytes} (hm : m ∈ (split p).filter fun n => !n.isEmpty && n != [dot]) :
      slash ∉ m ∧ m ≠ [] := by
    rw [List.mem_filter, Bool.and_eq_true, Bool.not_eq_true', List.isEmpty_eq_false_iff] at hm
    exact ⟨slash_notMem_of_mem_split hm.1, hm.2.1⟩
  simp only [parts] at hn
  split at hn
  · rcases List.mem_cons.mp hn with rfl | hn
    · exact ⟨by decide, by decide⟩
    · exact hkept hn
  · exact hkept hn

theorem isName_of_mem_parts {p : Path} (habs : (parts p).absolute = true) {n : Bytes}
    (hn : n ∈ (parts p).names) : IsName n := by
  have hspelled := spelled_of_mem_parts hn
  simp only [parts] at habs hn
  simp only [habs, Bool.not_true, Bool.false_and, Bool.false_eq_true, ↓reduceIte,
    List.mem_filter, Bool.and_eq_true, bne_iff_ne] at hn
  exact ⟨hspelled.1, hspelled.2, hn.2.2⟩

theorem parts_names_of_absolute {p : Path} (habs : (parts p).absolute = true) :
    (parts p).names = (split p).filter fun n => !n.isEmpty && n != [dot] := by
  simp only [parts] at habs ⊢
  simp [habs]

theorem join_ofNames {names : List Bytes} (h : ∀ n ∈ names, IsName n) (name : Bytes) :
    join (ofNames names) name = ofNames (names ++ [name]) := by
  rcases List.eq_nil_or_concat names with rfl | ⟨front, last, rfl⟩
  · simp [ofNames, join]
  · rw [List.concat_eq_append] at h ⊢
    have hlast := h last (by simp)
    have hend : (ofNames (front ++ [last])).getLast? ≠ some slash := by
      obtain ⟨b, hb⟩ : ∃ b, last.getLast? = some b :=
        Option.isSome_iff_exists.mp (by simpa using hlast.2.1)
      simp only [ofNames, List.isEmpty_iff, List.append_eq_nil_iff, List.cons_ne_self, and_false,
        ↓reduceIte, List.flatMap_append, List.flatMap_cons, List.flatMap_nil, List.append_nil,
        List.getLast?_append, List.getLast?_cons, hb, Option.getD_some, Option.some_or]
      rintro ⟨⟩
      exact hlast.1 (List.mem_of_getLast? hb)
    have hne : ofNames (front ++ [last]) ≠ [] := by
      intro hnil
      have := head_ofNames (front ++ [last])
      simp [hnil] at this
    have hsome : (ofNames (front ++ [last])).isEmpty = false := by simpa using hne
    rw [join, hsome, Bool.false_or, if_neg (by simpa using hend)]
    simp [ofNames]

end Path

end LanguageService

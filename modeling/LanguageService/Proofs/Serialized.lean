import LanguageService.Proofs.Escapes

namespace LanguageService.Uri

section Cut

variable {marks a b cs : List Char}

theorem cut_append (ha : ∀ c ∈ a, c ∉ marks) (hb : ∀ c ∈ b.head?, c ∈ marks) :
    cut marks (a ++ b) = (a, b) := by
  have hleft : ∀ c ∈ a, (!marks.contains c) = true := fun c hc => by simpa using ha c hc
  rw [cut, List.takeWhile_append_of_pos hleft, List.dropWhile_append_of_pos hleft]
  cases b with
  | nil => simp
  | cons c b =>
      have hc : (!marks.contains c) = false := by simpa using hb c rfl
      simp only [List.takeWhile_cons, List.dropWhile_cons, hc, Bool.false_eq_true, if_false,
        List.append_nil]

theorem cut_of_forall (h : ∀ c ∈ cs, c ∉ marks) : cut marks cs = (cs, []) := by
  simpa using cut_append (b := []) h (by simp)

theorem notMem_of_mem_cut {c : Char} (hc : c ∈ (cut marks cs).1) : c ∈ cs ∧ c ∉ marks := by
  refine ⟨(List.takeWhile_sublist _).mem hc, ?_⟩
  have hall := List.all_takeWhile (p := fun c => !marks.contains c) (l := cs)
  simpa using List.all_eq_true.mp hall c hc

theorem mem_of_mem_cut {c : Char} (hc : c ∈ (cut marks cs).2) : c ∈ cs :=
  (List.dropWhile_sublist _).mem hc

theorem dropWhile_eq_self {p : Char → Bool} (h : ∀ c ∈ cs.head?, p c = false) :
    cs.dropWhile p = cs := by
  cases cs with
  | nil => rfl
  | cons c cs => exact List.dropWhile_cons_of_neg (by simp [h c rfl])

theorem trim_eq (hhead : ∀ c ∈ cs.head?, Url.isEdge c = false)
    (hlast : ∀ c ∈ cs.getLast?, Url.isEdge c = false) : Url.trim (String.ofList cs) = cs := by
  rw [Url.trim, String.toList_ofList, dropWhile_eq_self hhead,
    dropWhile_eq_self (by simpa [List.head?_reverse] using hlast), List.reverse_reverse]

end Cut

structure IsScheme (name : List Char) : Prop where
  isName : isSchemeName name = true
  lower : name.map Char.toLower = name

def isSchemeChar (c : Char) : Bool := isLetter c || isDigit c || ['+', '-', '.'].contains c

theorem isSchemeChar_of_mem {name : List Char} (h : isSchemeName name = true) {c : Char}
    (hc : c ∈ name) : isSchemeChar c = true := by
  cases name with
  | nil => cases hc
  | cons x xs =>
      rw [isSchemeName, Bool.and_eq_true, List.all_eq_true] at h
      rcases List.mem_cons.mp hc with rfl | hc
      · simp [isSchemeChar, h.1]
      · exact h.2 c hc

theorem toNat_lt_of_isLetter {c : Char} (h : isLetter c = true) : c.toNat < 128 := by
  simp only [isLetter, Bool.or_eq_true, Bool.and_eq_true, decide_eq_true_eq] at h
  rcases h with ⟨-, h⟩ | ⟨-, h⟩
  · exact Nat.lt_of_le_of_lt (UInt32.le_iff_toNat_le.mp h) (by decide)
  · exact Nat.lt_of_le_of_lt (UInt32.le_iff_toNat_le.mp h) (by decide)

theorem toNat_lt_of_isDigit {c : Char} (h : isDigit c = true) : c.toNat < 128 := by
  simp only [isDigit, Bool.and_eq_true, decide_eq_true_eq] at h
  exact Nat.lt_of_le_of_lt (UInt32.le_iff_toNat_le.mp h.2) (by decide)

structure IsSchemeChar (c : Char) : Prop where
  shown : 0x20 < c.toNat ∧ c.toNat < 0x7F
  notMark : c ≠ ':' ∧ c ≠ '#' ∧ c ≠ '?'
  lower : isSchemeChar c.toLower = true ∧ c.toLower.toLower = c.toLower

theorem isSchemeChar_spec {c : Char} (h : isSchemeChar c = true) : IsSchemeChar c := by
  have hlt : c.toNat < 128 := by
    rw [isSchemeChar, Bool.or_eq_true, Bool.or_eq_true] at h
    rcases h with (h | h) | h
    · exact toNat_lt_of_isLetter h
    · exact toNat_lt_of_isDigit h
    · simp only [List.contains_eq_mem, List.mem_cons, List.not_mem_nil, or_false,
        decide_eq_true_eq] at h
      rcases h with rfl | rfl | rfl <;> decide
  obtain ⟨hshown, hmark, hlower⟩ := of_ascii (P := fun c => isSchemeChar c = true →
    (0x20 < c.toNat ∧ c.toNat < 0x7F) ∧ (c ≠ ':' ∧ c ≠ '#' ∧ c ≠ '?') ∧
      isSchemeChar c.toLower = true ∧ c.toLower.toLower = c.toLower) (by decide +kernel) hlt h
  exact ⟨hshown, hmark, hlower⟩

namespace IsScheme

variable {name : List Char} (h : IsScheme name)

include h

theorem char {c : Char} (hc : c ∈ name) : IsSchemeChar c :=
  isSchemeChar_spec (isSchemeChar_of_mem h.isName hc)

theorem shown : shown name = name := by
  refine shown_of_forall fun c hc => eq_false_of_ne_true fun hignored => ?_
  have hshown := (h.char hc).shown.1
  simp only [isIgnored, Bool.or_eq_true, beq_iff_eq] at hignored
  rcases hignored with (rfl | rfl) | rfl <;> exact absurd hshown (by decide)

theorem head_not_edge : ∀ c ∈ name.head?, Url.isEdge c = false := by
  intro c hc
  have hshown := (h.char (List.mem_of_mem_head? hc)).shown.1
  simpa [Url.isEdge] using hshown

theorem ne_nil : name ≠ [] := by
  rintro rfl
  exact absurd h.isName (by decide)

end IsScheme

def marked (mark : Char) : Option (List Char) → List Char
  | none => []
  | some cs => mark :: cs

structure Parts where
  body : List Char
  query : Option (List Char)
  fragment : Option (List Char)

namespace Parts

def text (ps : Parts) : List Char := ps.body ++ marked '?' ps.query ++ marked '#' ps.fragment

structure IsCut (ps : Parts) : Prop where
  body : '#' ∉ ps.body ∧ '?' ∉ ps.body
  query : ∀ cs, ps.query = some cs → '#' ∉ cs

def read (ps : Parts) (name : List Char) : Option Url :=
  let scheme := String.ofList name
  let query := marked '?' ps.query
  let fragment := marked '#' ps.fragment
  match SchemeKind.ofName scheme with
  | .file => Url.file? ps.body query fragment
  | .web p =>
      Url.withAuthority? scheme (.web p) ((shown ps.body).dropWhile isSlashOrBackslash) query
        fragment
  | .other => Url.other? scheme ps.body query fragment

theorem hash_notMem {ps : Parts} (h : ps.IsCut) : '#' ∉ marked '?' ps.query := by
  cases hq : ps.query with
  | none => simp [marked]
  | some cs => simpa [marked] using h.query cs hq

theorem head_marked {mark : Char} {part : Option (List Char)} {c : Char}
    (hc : c ∈ (marked mark part).head?) : c = mark := by
  cases part <;> simp_all [marked]

theorem parse?_eq {name : List Char} {ps : Parts} (hname : IsScheme name) (hcut : ps.IsCut)
    (hend : ∀ c ∈ ps.text.getLast?, Url.isEdge c = false) :
    Url.parse? (String.ofList (name ++ ':' :: ps.text)) = ps.read name := by
  have hlast : ∀ c ∈ (name ++ ':' :: ps.text).getLast?, Url.isEdge c = false := by
    intro c hc
    rw [List.getLast?_append, List.getLast?_cons] at hc
    cases hx : ps.text.getLast? with
    | none =>
        obtain rfl : ':' = c := by simpa [hx] using hc
        decide
    | some x =>
        obtain rfl : x = c := by simpa [hx] using hc
        exact hend x hx
  have hchar := fun c (hc : c ∈ name) => (hname.char hc).notMark
  have hhead : ∀ c ∈ (name ++ ':' :: ps.text).head?, Url.isEdge c = false := by
    intro c hc
    rw [List.head?_append] at hc
    cases hx : name.head? with
    | none => exact absurd (List.head?_eq_none_iff.mp hx) hname.ne_nil
    | some x =>
        obtain rfl : x = c := by simpa [hx] using hc
        exact hname.head_not_edge x hx
  have hhash : cut ['#'] (name ++ ':' :: ps.text) =
      (name ++ ':' :: (ps.body ++ marked '?' ps.query), marked '#' ps.fragment) := by
    rw [text, ← List.cons_append, ← List.append_assoc]
    refine cut_append (fun c hc => ?_) fun c hc => by simp [head_marked hc]
    rw [List.mem_singleton]
    rintro rfl
    simp only [List.mem_append, List.mem_cons] at hc
    rcases hc with hc | hc | hc | hc
    · exact (hchar _ hc).2.1 rfl
    · exact absurd hc (by decide)
    · exact hcut.body.1 hc
    · exact hash_notMem hcut hc
  have hmark : cut ['?'] (name ++ ':' :: (ps.body ++ marked '?' ps.query)) =
      (name ++ ':' :: ps.body, marked '?' ps.query) := by
    rw [← List.cons_append, ← List.append_assoc]
    refine cut_append (fun c hc => ?_) fun c hc => by simp [head_marked hc]
    rw [List.mem_singleton]
    rintro rfl
    simp only [List.mem_append, List.mem_cons] at hc
    rcases hc with hc | hc | hc
    · exact (hchar _ hc).2.2 rfl
    · exact absurd hc (by decide)
    · exact hcut.body.2 hc
  have hcolon : cut [':'] (name ++ ':' :: ps.body) = (name, ':' :: ps.body) :=
    cut_append (fun c hc => by simpa using (hchar c hc).1) (by simp)
  rw [Url.parse?, trim_eq hhead hlast, hhash]
  simp only
  rw [hmark]
  simp only
  rw [hcolon]
  simp only [hname.shown, hname.isName, hname.lower, if_true]
  rfl

end Parts

structure IsSegment (k : SchemeKind) (s : List Char) : Prop where
  char : ∀ c ∈ s, pathSet c = false ∧ isSlash k c = false
  notDot : isDot s = false
  notDoubleDot : isDoubleDot s = false

def joined (ss : List (List Char)) : List Char := ss.flatMap ('/' :: ·)

section Segments

variable {k : SchemeKind} {s cs : List Char} {ss : List (List Char)}

theorem isSlash_slash (k : SchemeKind) : isSlash k '/' = true := rfl

theorem splitSegments_ne_nil (cs : List Char) : splitSegments k cs ≠ [] := by
  cases cs with
  | nil => simp [splitSegments]
  | cons c cs =>
      simp only [splitSegments]
      split
      · simp
      · split <;> simp

theorem splitSegments_slash (cs : List Char) :
    splitSegments k ('/' :: cs) = [] :: splitSegments k cs := by
  have hne := splitSegments_ne_nil (k := k) cs
  cases h : splitSegments k cs with
  | nil => exact absurd h hne
  | cons w ws => simp [splitSegments, h, isSlash_slash]

theorem splitSegments_of_forall (h : ∀ c ∈ s, isSlash k c = false) : splitSegments k s = [s] := by
  induction s with
  | nil => rfl
  | cons c s ih =>
      have hrest := ih fun x hx => h x (List.mem_cons_of_mem c hx)
      simp [splitSegments, hrest, h c List.mem_cons_self]

theorem splitSegments_append_slash (h : ∀ c ∈ s, isSlash k c = false) (cs : List Char) :
    splitSegments k (s ++ '/' :: cs) = s :: splitSegments k cs := by
  induction s with
  | nil => exact splitSegments_slash cs
  | cons c s ih =>
      have hrest := ih fun x hx => h x (List.mem_cons_of_mem c hx)
      simp [splitSegments, hrest, h c List.mem_cons_self]

theorem splitSegments_append_joined (hs : ∀ c ∈ s, isSlash k c = false)
    (h : ∀ x ∈ ss, ∀ c ∈ x, isSlash k c = false) :
    splitSegments k (s ++ joined ss) = s :: ss := by
  induction ss generalizing s with
  | nil => simpa [joined] using splitSegments_of_forall hs
  | cons x ss ih =>
      have hrest := ih (h x List.mem_cons_self) fun y hy => h y (List.mem_cons_of_mem x hy)
      rw [joined, List.flatMap_cons, List.cons_append, splitSegments_append_slash hs]
      exact congrArg (s :: ·) hrest

theorem not_isSlash_of_mem_splitSegments (hs : s ∈ splitSegments k cs) :
    ∀ c ∈ s, isSlash k c = false := by
  induction cs generalizing s with
  | nil =>
      obtain rfl : s = [] := by simpa [splitSegments] using hs
      simp
  | cons c cs ih =>
      simp only [splitSegments] at hs
      split at hs
      · next h => exact absurd h (splitSegments_ne_nil cs)
      · next w ws h =>
          rw [h] at ih
          split at hs
          · rcases List.mem_cons.mp hs with rfl | hs
            · simp
            · exact ih hs
          · next hc =>
              rcases List.mem_cons.mp hs with rfl | hs
              · have hw := ih List.mem_cons_self
                exact List.forall_mem_cons.mpr ⟨eq_false_of_ne_true hc, hw⟩
              · exact ih (List.mem_cons_of_mem w hs)

theorem IsSegment.encode_shown (h : IsSegment k s) : encode pathSet (shown s) = s := by
  rw [shown_of_forall fun c hc => pathSet_escaping.isIgnored (h.char c hc).1,
    encode_of_forall fun c hc => (h.char c hc).1]

theorem pathSet_of_mem_joined (hs : ∀ s ∈ ss, IsSegment k s) {c : Char} (hc : c ∈ joined ss) :
    pathSet c = false := by
  obtain ⟨s, hmem, hc⟩ := List.mem_flatMap.mp hc
  rcases List.mem_cons.mp hc with rfl | hc
  · decide
  · exact ((hs s hmem).char c hc).1

theorem not_isEdge_of_pathSet {c : Char} (hc : pathSet c = false) : Url.isEdge c = false := by
  simp only [pathSet, fragmentSet, isControl, Bool.or_eq_false_iff, decide_eq_false_iff_not,
    List.contains_eq_mem, List.mem_cons, not_or] at hc
  refine eq_false_of_ne_true fun hedge => ?_
  have hle : c.toNat ≤ 0x20 := by simpa [Url.isEdge] using hedge
  have hspace : c = ' ' := by
    rw [← Char.ofNat_toNat c, show c.toNat = 0x20 by omega]
  exact hc.1.2.1 hspace

theorem isSegment_nil (k : SchemeKind) : IsSegment k [] :=
  ⟨by simp, by decide, by decide⟩

theorem not_isSlash_of_isEscape {c : Char} (hc : isEscape c = true) : isSlash k c = false := by
  have hall : ∀ n < 16, isSlashOrBackslash (hexDigit n) = false := by decide
  have hnot : isSlashOrBackslash c = false := by
    rcases isEscape_cases hc with rfl | ⟨n, hn, rfl⟩
    · decide
    · exact hall n hn
  rw [isSlashOrBackslash, Bool.or_eq_false_iff] at hnot
  simp [isSlash, hnot.1, hnot.2]

theorem isSegment_encode (h : ∀ c ∈ s, isSlash k c = false)
    (hdot : isDot (encode pathSet (shown s)) = false)
    (hdouble : isDoubleDot (encode pathSet (shown s)) = false) :
    IsSegment k (encode pathSet (shown s)) := by
  refine ⟨fun c hc => ⟨pathSet_escaping.of_mem_encode hc, ?_⟩, hdot, hdouble⟩
  rcases mem_encode hc with ⟨hc, -⟩ | hc
  · exact h c (List.mem_filter.mp hc).1
  · exact not_isSlash_of_isEscape hc

end Segments

namespace Trail

variable {k : SchemeKind} {t : Trail} {s : List Char} {more : Bool} {ss : List (List Char)}

theorem add_of_isSegment (hs : IsSegment k s) (hstart : k ≠ .file ∨ t.segments ≠ []) :
    t.add k s more = t.push s := by
  have hnot : ¬ (k = .file ∧ t.segments.isEmpty = true) := by
    rintro ⟨hk, hempty⟩
    rcases hstart with h | h
    · exact h hk
    · exact h (List.isEmpty_iff.mp hempty)
  simp only [add, hs.encode_shown, hs.notDot, hs.notDoubleDot, Bool.false_eq_true,
    if_false, hnot, false_and]

theorem addAll_of_isSegment (hs : ∀ s ∈ ss, IsSegment k s)
    (hstart : k ≠ .file ∨ t.segments ≠ []) :
    t.addAll k ss = ⟨ss.reverse ++ t.segments, t.onDrive⟩ := by
  induction ss generalizing t with
  | nil => rfl
  | cons s ss ih =>
      have hpush : ∀ more, t.add k s more = t.push s := fun more =>
        add_of_isSegment (hs s List.mem_cons_self) hstart
      cases ss with
      | nil =>
          rw [addAll, hpush]
          rfl
      | cons x ss =>
          rw [addAll, hpush, ih (fun y hy => hs y (List.mem_cons_of_mem s hy))
            (.inr (List.cons_ne_nil _ _))]
          · simp [push]
          · rintro ⟨⟩

def IsSettled (k : SchemeKind) (t : Trail) : Prop :=
  t.onDrive = false ∧ ∀ s ∈ t.segments, IsSegment k s

theorem IsSettled.push (h : t.IsSettled k) (hs : IsSegment k s) : (t.push s).IsSettled k :=
  ⟨h.1, List.forall_mem_cons.mpr ⟨hs, h.2⟩⟩

theorem IsSettled.leave (h : t.IsSettled k) : t.leave.IsSettled k := by
  rw [Trail.leave]
  split
  · exact h
  · next s ss hsegments =>
      split
      · exact h
      · exact ⟨h.1, fun x hx => h.2 x (hsegments ▸ List.mem_cons_of_mem s hx)⟩

theorem IsSettled.add (hk : k ≠ .file) (h : t.IsSettled k) (hs : ∀ c ∈ s, isSlash k c = false) :
    (t.add k s more).IsSettled k := by
  simp only [Trail.add, hk, false_and, if_false]
  split
  · split
    · exact h.leave
    · exact h.leave.push (isSegment_nil k)
  · next hdouble =>
      split
      · split
        · exact h
        · exact h.push (isSegment_nil k)
      · next hdot =>
          exact h.push (isSegment_encode hs (eq_false_of_ne_true hdot)
            (eq_false_of_ne_true hdouble))

theorem IsSettled.addAll (hk : k ≠ .file) (h : t.IsSettled k)
    (hs : ∀ s ∈ ss, ∀ c ∈ s, isSlash k c = false) : (t.addAll k ss).IsSettled k := by
  induction ss generalizing t with
  | nil => exact h
  | cons s ss ih =>
      have hadd : ∀ more, (t.add k s more).IsSettled k := fun more =>
        h.add hk (hs s List.mem_cons_self)
      cases ss with
      | nil => exact hadd false
      | cons x ss => exact ih (hadd true) fun y hy => hs y (List.mem_cons_of_mem s hy)

theorem segments_add_ne_nil (hk : k ≠ .file) : (t.add k s false).segments ≠ [] := by
  simp only [Trail.add, hk, false_and, if_false, Bool.false_eq_true]
  split
  · exact List.cons_ne_nil _ _
  · split <;> exact List.cons_ne_nil _ _

theorem segments_addAll_ne_nil (hk : k ≠ .file) (hne : ss ≠ []) :
    (t.addAll k ss).segments ≠ [] := by
  induction ss generalizing t with
  | nil => exact absurd rfl hne
  | cons s ss ih =>
      cases ss with
      | nil => exact segments_add_ne_nil hk
      | cons x ss => exact ih (List.cons_ne_nil _ _)

end Trail

section Rooted

variable {k : SchemeKind} {ss : List (List Char)} {cs : List Char}

theorem exists_joined_of_rooted (hk : k ≠ .file) (cs : List Char) :
    ∃ ss, ss ≠ [] ∧ (∀ s ∈ ss, IsSegment k s) ∧
      rooted k cs = ⟨String.ofList (joined ss), false⟩ := by
  have hsettled := Trail.IsSettled.addAll (t := .start) hk ⟨rfl, by simp [Trail.start]⟩
    fun s (hs : s ∈ splitSegments k cs) => not_isSlash_of_mem_splitSegments hs
  have hne := Trail.segments_addAll_ne_nil (t := .start) hk (splitSegments_ne_nil (k := k) cs)
  refine ⟨_, List.reverse_ne_nil_iff.mpr hne, fun s hs => hsettled.2 s (List.mem_reverse.mp hs), ?_⟩
  rw [rooted, if_neg hk, hsettled.1]
  rfl

theorem rooted_joined (hk : k ≠ .file) (hne : ss ≠ []) (hs : ∀ s ∈ ss, IsSegment k s) :
    rooted k (withoutSlash k (joined ss)) = ⟨String.ofList (joined ss), false⟩ := by
  cases ss with
  | nil => exact absurd rfl hne
  | cons s ss =>
      have hslashes : ∀ x ∈ s :: ss, ∀ c ∈ x, isSlash k c = false := fun x hx c hc =>
        ((hs x hx).char c hc).2
      have hsplit := splitSegments_append_joined (hslashes s List.mem_cons_self)
        fun x hx => hslashes x (List.mem_cons_of_mem s hx)
      have hdrop : withoutSlash k (joined (s :: ss)) = s ++ joined ss := by
        rw [joined, List.flatMap_cons, List.cons_append, withoutSlash, if_pos (isSlash_slash k)]
        rfl
      rw [hdrop, rooted, hsplit, Trail.addAll_of_isSegment hs (.inl hk), if_neg hk]
      simp [Trail.start, joined]

end Rooted

end LanguageService.Uri

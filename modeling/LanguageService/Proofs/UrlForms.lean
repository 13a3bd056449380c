import LanguageService.Proofs.Hosts

namespace LanguageService.Uri

def lead (ss : List (List Char)) : List Char :=
  if ['/', '/'].isPrefixOf (joined ss) then ['/', '.'] else []

inductive IsBody (k : SchemeKind) : List Char → Prop where
  | asked {text host ss} (ha : IsAuthority k text host) (hs : ∀ s ∈ ss, IsSegment k s)
    (hne : k.isSpecial = true → ss ≠ []) : IsBody k ('/' :: '/' :: (text ++ joined ss))
  | rooted {ss} (hk : k = .other) (hs : ∀ s ∈ ss, IsSegment k s) (hne : ss ≠ []) :
    IsBody k (lead ss ++ joined ss)
  | plain {cs} (hk : k = .other) (hchar : ∀ c ∈ cs, isControl c = false ∧ c ≠ '#' ∧ c ≠ '?')
    (hhead : ∀ c ∈ cs.head?, c ≠ '/') (hne : cs ≠ []) : IsBody k cs

structure Parts.IsCanonical (k : SchemeKind) (ps : Parts) : Prop where
  body : IsBody k ps.body
  query : ∀ cs, ps.query = some cs → ∀ c ∈ cs, querySetOf k c = false
  fragment : ∀ cs, ps.fragment = some cs → ∀ c ∈ cs, fragmentSet c = false

section Char

variable {k : SchemeKind} {c : Char}

structure IsWritten (c : Char) : Prop where
  edge : Url.isEdge c = true → c = ' '
  ignored : isIgnored c = false

theorem isWritten_of_not_isControl (hc : isControl c = false) : IsWritten c where
  edge := by
    intro hedge
    have hle : c.toNat ≤ 0x20 := by simpa [Url.isEdge] using hedge
    simp only [isControl, Bool.or_eq_false_iff, decide_eq_false_iff_not] at hc
    rw [← Char.ofNat_toNat c, show c.toNat = 0x20 by omega]
  ignored := isControl_escaping.isIgnored hc

theorem isWritten_of_isEscaping {set : Char → Bool} (hset : IsEscaping set) (hc : set c = false) :
    IsWritten c := by
  refine isWritten_of_not_isControl (eq_false_of_ne_true fun hcontrol => ?_)
  rw [hset.controls c hcontrol] at hc
  cases hc

theorem isIgnored_of_not_isEdge (hc : Url.isEdge c = false) : isIgnored c = false := by
  refine eq_false_of_ne_true fun hignored => ?_
  simp only [isIgnored, Bool.or_eq_true, beq_iff_eq] at hignored
  rcases hignored with (rfl | rfl) | rfl <;> exact absurd hc (by decide)

theorem IsPlain.isWritten (h : IsPlain c) : IsWritten c :=
  ⟨fun hedge => absurd h.notEdge (by simp [hedge]), isIgnored_of_not_isEdge h.notEdge⟩

end Char

section Parts

variable {k : SchemeKind} {text rest body : List Char} {host : String}
  {ss : List (List Char)} {query fragment : Option (List Char)}

theorem isWritten_of_pathSet {c : Char} (hc : pathSet c = false) :
    IsWritten c ∧ c ≠ '#' ∧ c ≠ '?' := by
  refine ⟨?_, ?_, ?_⟩
  · exact ⟨fun hedge => absurd (not_isEdge_of_pathSet hc) (by simp [hedge]),
      pathSet_escaping.isIgnored hc⟩
  · rintro rfl
    exact absurd hc (by decide)
  · rintro rfl
    exact absurd hc (by decide)

theorem pathSet_of_mem_lead {c : Char} (hc : c ∈ lead ss) : pathSet c = false := by
  rw [lead] at hc
  split at hc
  · simp only [List.mem_cons, List.not_mem_nil, or_false] at hc
    rcases hc with rfl | rfl <;> decide
  · cases hc

theorem IsAuthority.written (h : IsAuthority k text host) {c : Char}
    (hc : c ∈ '/' :: '/' :: text) : IsWritten c ∧ c ≠ '#' ∧ c ≠ '?' := by
  simp only [List.mem_cons] at hc
  rcases hc with rfl | rfl | hc
  · exact isWritten_of_pathSet (by decide)
  · exact isWritten_of_pathSet (by decide)
  · exact ⟨(h.char c hc).isWritten, (h.char c hc).notMark⟩

theorem IsBody.char (h : IsBody k body) : ∀ c ∈ body, IsWritten c ∧ c ≠ '#' ∧ c ≠ '?' := by
  cases h with
  | asked ha hs hne =>
      intro c hc
      rw [← List.cons_append, ← List.cons_append] at hc
      rcases List.mem_append.mp hc with hc | hc
      · exact ha.written hc
      · exact isWritten_of_pathSet (pathSet_of_mem_joined hs hc)
  | rooted hk hs hne =>
      intro c hc
      rcases List.mem_append.mp hc with hc | hc
      · exact isWritten_of_pathSet (pathSet_of_mem_lead hc)
      · exact isWritten_of_pathSet (pathSet_of_mem_joined hs hc)
  | plain hk hchar hhead hne =>
      exact fun c hc => ⟨isWritten_of_not_isControl (hchar c hc).1, (hchar c hc).2⟩

theorem querySetOf_hash (k : SchemeKind) : querySetOf k '#' = true := by
  cases k <;> rfl

theorem Parts.mem_marked {mark c : Char} {part : Option (List Char)} (hc : c ∈ marked mark part) :
    c = mark ∨ ∃ cs, part = some cs ∧ c ∈ cs := by
  cases part with
  | none => cases hc
  | some cs => simpa [marked] using hc

namespace Parts.IsCanonical

variable {ps : Parts} (h : ps.IsCanonical k)

include h

theorem isCut : ps.IsCut where
  body := ⟨fun hmem => (h.body.char _ hmem).2.1 rfl, fun hmem => (h.body.char _ hmem).2.2 rfl⟩
  query := fun cs hcs hmem => by simpa [querySetOf_hash] using h.query cs hcs _ hmem

theorem isWritten {c : Char} (hc : c ∈ ps.text) : IsWritten c := by
  rw [text, List.mem_append, List.mem_append] at hc
  rcases hc with (hc | hc) | hc
  · exact (h.body.char c hc).1
  · rcases mem_marked hc with rfl | ⟨cs, hcs, hc⟩
    · exact ⟨by decide, by decide⟩
    · exact isWritten_of_isEscaping (querySetOf_escaping k) (h.query cs hcs c hc)
  · rcases mem_marked hc with rfl | ⟨cs, hcs, hc⟩
    · exact ⟨by decide, by decide⟩
    · exact isWritten_of_isEscaping fragmentSet_escaping (h.fragment cs hcs c hc)

end Parts.IsCanonical

theorem IsBody.shown (h : IsBody k body) : shown body = body :=
  shown_of_forall fun c hc => (h.char c hc).1.ignored

theorem IsAuthority.shown (h : IsAuthority k text host) : Uri.shown text = text :=
  shown_of_forall fun c hc => isIgnored_of_not_isEdge (h.char c hc).notEdge

theorem withAuthority?_append (ha : IsAuthority k text host) (hrest : ∀ c ∈ rest.head?, c = '/')
    (scheme : String) (query fragment : List Char) :
    Url.withAuthority? scheme k (text ++ rest) query fragment =
      some ⟨scheme, some (String.ofList text), host,
        if rest.isEmpty && !k.isSpecial then "" else (rooted k (withoutSlash k rest)).text,
        Url.queryText k query, Url.fragmentText fragment⟩ := by
  have hleft : ∀ c ∈ text, (!isSlash k c) = true := by
    intro c hc
    have hslash := (ha.char c hc).notSlash
    rw [isSlashOrBackslash, Bool.or_eq_false_iff] at hslash
    simp [isSlash, hslash.1, hslash.2]
  have hcut : cutAuthority k (text ++ rest) = (text, rest) := by
    rw [cutAuthority, List.takeWhile_append_of_pos hleft, List.dropWhile_append_of_pos hleft]
    cases rest with
    | nil => simp
    | cons c rest =>
        obtain rfl := hrest c rfl
        simp [isSlash_slash]
  rw [Url.withAuthority?, hcut]
  simp [ha.shown, ha.read]

theorem head_joined {c : Char} (hc : c ∈ (joined ss).head?) : c = '/' := by
  cases ss with
  | nil => cases hc
  | cons s ss => exact (Option.some.inj hc).symm

theorem withAuthority?_joined (hk : k ≠ .file) (ha : IsAuthority k text host)
    (hs : ∀ s ∈ ss, IsSegment k s) (hne : k.isSpecial = true → ss ≠ []) (scheme : String)
    (query fragment : List Char) :
    Url.withAuthority? scheme k (text ++ joined ss) query fragment =
      some ⟨scheme, some (String.ofList text), host, String.ofList (joined ss),
        Url.queryText k query, Url.fragmentText fragment⟩ := by
  rw [withAuthority?_append ha (fun c hc => head_joined hc)]
  cases ss with
  | nil =>
      have hspecial : k.isSpecial = false := eq_false_of_ne_true fun h => hne h rfl
      simp [joined, hspecial]
  | cons s ss =>
      rw [rooted_joined hk (List.cons_ne_nil s ss) hs]
      simp [joined]

theorem queryText_marked (h : ∀ cs, query = some cs → ∀ c ∈ cs, querySetOf k c = false) :
    Url.queryText k (marked '?' query) = query.map String.ofList := by
  cases query with
  | none => rfl
  | some cs =>
      have hset := h cs rfl
      have hshown : Uri.shown cs = cs :=
        shown_of_forall fun c hc => (querySetOf_escaping k).isIgnored (hset c hc)
      have hencode : encode (querySetOf k) cs = cs := encode_of_forall hset
      rw [querySetOf] at hencode
      rw [marked, Url.queryText, hshown, hencode]
      rfl

theorem fragmentText_marked (h : ∀ cs, fragment = some cs → ∀ c ∈ cs, fragmentSet c = false) :
    Url.fragmentText (marked '#' fragment) = fragment.map String.ofList := by
  cases fragment with
  | none => rfl
  | some cs =>
      have hset := h cs rfl
      have hshown : Uri.shown cs = cs :=
        shown_of_forall fun c hc => fragmentSet_escaping.isIgnored (hset c hc)
      rw [marked, Url.fragmentText, hshown, encode_of_forall hset]
      rfl

theorem isPrefixOf_slashes {cs : List Char} (hhead : ∀ c ∈ cs.head?, c ≠ '/') :
    ['/', '/'].isPrefixOf cs = false := by
  cases cs with
  | nil => rfl
  | cons c cs => simp [List.isPrefixOf, (hhead c rfl).symm]

def bodyText (authority : Option String) (path : List Char) : List Char :=
  (authority.elim (if ['/', '/'].isPrefixOf path then ['/', '.'] else [])
    fun a => '/' :: '/' :: a.toList) ++ path

theorem toList_toString (name path : List Char) (authority : Option String) (host : String)
    (query fragment : Option (List Char)) :
    (Url.mk (String.ofList name) authority host (String.ofList path)
      (query.map String.ofList) (fragment.map String.ofList)).toString.toList =
      name ++ ':' :: Parts.text ⟨bodyText authority path, query, fragment⟩ := by
  have hprefix : (String.ofList path).startsWith "//" = ['/', '/'].isPrefixOf path := by
    rw [Bool.eq_iff_iff, String.startsWith_string_iff, List.isPrefixOf_iff_prefix,
      String.toList_ofList, String.toList_ofList]
  have hquery : (((query.map String.ofList).map ("?" ++ ·)).getD "").toList = marked '?' query := by
    cases query <;> simp [marked]
  have hfragment : (((fragment.map String.ofList).map ("#" ++ ·)).getD "").toList =
      marked '#' fragment := by
    cases fragment <;> simp [marked]
  simp only [Url.toString, hprefix, String.toList_append, hquery, hfragment, String.toList_ofList,
    Parts.text, bodyText]
  cases authority with
  | none =>
      simp only [Option.elim_none]
      split <;> simp
  | some a => simp

theorem rooted_lead (hs : ∀ s ∈ ss, IsSegment .other s) (hne : ss ≠ []) :
    rooted .other (['.'] ++ joined ss) = ⟨String.ofList (joined ss), false⟩ := by
  have hsplit : splitSegments .other (['.'] ++ joined ss) = ['.'] :: ss :=
    splitSegments_append_joined (by simp [isSlash]) fun x hx c hc => ((hs x hx).char c hc).2
  have hshown : encode pathSet (shown ['.']) = ['.'] := by decide
  have hdot : Trail.add .other .start ['.'] true = .start := by
    simp [Trail.add, hshown, isDoubleDot, isDot]
  rw [rooted, hsplit]
  cases ss with
  | nil => exact absurd rfl hne
  | cons s ss =>
      rw [Trail.addAll, hdot, Trail.addAll_of_isSegment hs (.inl (by decide)), if_neg (by decide)]
      · simp [Trail.start, joined]
      · rintro ⟨⟩

theorem IsAuthority.ne_nil (h : IsAuthority k text host) (hk : k.isSpecial = true) :
    text ≠ [] := by
  rintro rfl
  have hread := h.read true
  simp [authority?, cutLast, cutPort, hk] at hread

theorem dropWhile_slashes {p : Nat} (ha : IsAuthority (.web p) text host) (rest : List Char) :
    ('/' :: '/' :: (text ++ rest)).dropWhile isSlashOrBackslash = text ++ rest := by
  cases text with
  | nil => exact absurd rfl (ha.ne_nil rfl)
  | cons c text =>
      have hslash := (ha.char c List.mem_cons_self).notSlash
      have hfirst : isSlashOrBackslash '/' = true := rfl
      simp [List.dropWhile, hslash, hfirst]

theorem lead_joined (hs : ∀ s ∈ ss, IsSegment .other s) (hne : ss ≠ []) :
    ∃ rest, lead ss ++ joined ss = '/' :: rest ∧ rest.head? ≠ some '/' ∧
      rooted .other rest = ⟨String.ofList (joined ss), false⟩ := by
  rw [lead]
  split
  · exact ⟨_, rfl, by simp, rooted_lead hs hne⟩
  · next hprefix =>
      have hread := rooted_joined (k := .other) (by decide) hne hs
      cases ss with
      | nil => exact absurd rfl hne
      | cons s ss =>
          refine ⟨s ++ joined ss, rfl, fun hhead => hprefix ?_, hread⟩
          rw [joined, List.flatMap_cons, List.cons_append]
          rw [joined] at hhead
          obtain ⟨rest, hrest⟩ := List.head?_eq_some_iff.mp hhead
          rw [hrest]
          rfl

theorem other?_rooted (hs : ∀ s ∈ ss, IsSegment .other s) (hne : ss ≠ [])
    (scheme : String) (query fragment : List Char) :
    Url.other? scheme (lead ss ++ joined ss) query fragment =
      some ⟨scheme, none, "", String.ofList (joined ss), Url.queryText .other query,
        Url.fragmentText fragment⟩ := by
  have hshown := (IsBody.rooted rfl hs hne).shown
  obtain ⟨rest, hrest, hhead, hread⟩ := lead_joined hs hne
  rw [Url.other?, hshown, hrest]
  cases rest with
  | nil => simp [hread]
  | cons c rest =>
      have hc : c ≠ '/' := by simpa using hhead
      simp [hc, hread]

theorem other?_plain {cs : List Char} (hchar : ∀ c ∈ cs, isControl c = false ∧ c ≠ '#' ∧ c ≠ '?')
    (hhead : ∀ c ∈ cs.head?, c ≠ '/') (scheme : String) (query fragment : List Char) :
    Url.other? scheme cs query fragment =
      some ⟨scheme, none, "", String.ofList cs, Url.queryText .other query,
        Url.fragmentText fragment⟩ := by
  have hshown : shown cs = cs :=
    shown_of_forall fun c hc => isControl_escaping.isIgnored (hchar c hc).1
  have hencode : encode isControl cs = cs := encode_of_forall fun c hc => (hchar c hc).1
  rw [Url.other?, hshown]
  cases cs with
  | nil => rfl
  | cons c cs =>
      have hc : c ≠ '/' := hhead c rfl
      simp [hc, hencode]

theorem Parts.IsCanonical.read {ps : Parts} {name : List Char} (h : ps.IsCanonical k)
    (hk : SchemeKind.ofName (String.ofList name) = k) (hfile : k ≠ .file) :
    ∃ u, ps.read name = some u ∧ u.scheme = String.ofList name ∧
      u.toString.toList = name ++ ':' :: ps.text ∧ (u.isPlain && u.path.isEmpty) = false := by
  obtain ⟨body, query, fragment⟩ := ps
  have hbody : IsBody k body := h.body
  have hquery : Url.queryText k (marked '?' query) = query.map String.ofList :=
    queryText_marked h.query
  have hfragment : Url.fragmentText (marked '#' fragment) = fragment.map String.ofList :=
    fragmentText_marked h.fragment
  have hshown := hbody.shown
  cases hbody with
  | @asked text host ss ha hs hne =>
      refine ⟨⟨String.ofList name, some (String.ofList text), host, String.ofList (joined ss),
        query.map String.ofList, fragment.map String.ofList⟩, ?_, rfl, ?_, rfl⟩
      · have hjoined := withAuthority?_joined hfile ha hs hne (String.ofList name)
          (marked '?' query) (marked '#' fragment)
        rw [hquery, hfragment] at hjoined
        rw [Parts.read, hk, hshown]
        cases k with
        | file => exact absurd rfl hfile
        | web p => simp only [dropWhile_slashes ha, hjoined]
        | other => simp only [Url.other?, hshown, hjoined]
      · rw [toList_toString]
        simp [bodyText]
  | @rooted ss hother hs hne =>
      subst hother
      refine ⟨⟨String.ofList name, none, "", String.ofList (joined ss), query.map String.ofList,
        fragment.map String.ofList⟩, ?_, rfl, ?_, ?_⟩
      · rw [Parts.read, hk]
        simp only [other?_rooted hs hne, hquery, hfragment]
      · rw [toList_toString]
        rfl
      · have hpath : joined ss ≠ [] := by
          cases ss with
          | nil => exact absurd rfl hne
          | cons s ss => exact List.cons_ne_nil _ _
        simp [hpath]
  | plain hother hchar hhead hne =>
      subst hother
      refine ⟨⟨String.ofList name, none, "", String.ofList body, query.map String.ofList,
        fragment.map String.ofList⟩, ?_, rfl, ?_, ?_⟩
      · rw [Parts.read, hk]
        simp only [other?_plain hchar hhead, hquery, hfragment]
      · rw [toList_toString, bodyText, Option.elim_none, isPrefixOf_slashes hhead]
        rfl
      · simp [hne]

theorem read_bare {p : Nat} {name : List Char} (ha : IsAuthority (.web p) text host)
    (hk : SchemeKind.ofName (String.ofList name) = .web p) :
    Parts.read ⟨'/' :: '/' :: text, none, none⟩ name =
      some ⟨String.ofList name, some (String.ofList text), host, String.ofList ['/'],
        none, none⟩ := by
  have hshown : shown ('/' :: '/' :: text) = '/' :: '/' :: text :=
    shown_of_forall fun c hc => (ha.written hc).1.ignored
  have hdrop := dropWhile_slashes ha []
  have hread : ∀ scheme, Url.withAuthority? scheme (.web p) (text ++ []) [] [] =
      some ⟨scheme, some (String.ofList text), host, String.ofList ['/'], none, none⟩ :=
    fun scheme => withAuthority?_append ha (by simp) scheme [] []
  rw [List.append_nil] at hdrop hread
  rw [Parts.read, hk]
  simp only [hshown, hdrop, marked, hread]

end Parts

section Read

variable {k : SchemeKind} {cs query fragment : List Char} {scheme : String} {u : Url}

theorem queryText_spec (k : SchemeKind) (cs : List Char) :
    ∃ part, Url.queryText k cs = part.map String.ofList ∧
      ∀ x, part = some x → ∀ c ∈ x, querySetOf k c = false := by
  unfold Url.queryText
  split
  · next cs =>
      refine ⟨some _, rfl, fun x hx c hc => ?_⟩
      obtain rfl := Option.some.inj hx
      exact (querySetOf_escaping k).of_mem_encode hc
  · exact ⟨none, rfl, by simp⟩

theorem fragmentText_spec (cs : List Char) :
    ∃ part, Url.fragmentText cs = part.map String.ofList ∧
      ∀ x, part = some x → ∀ c ∈ x, fragmentSet c = false := by
  unfold Url.fragmentText
  split
  · next cs =>
      refine ⟨some _, rfl, fun x hx c hc => ?_⟩
      obtain rfl := Option.some.inj hx
      exact fragmentSet_escaping.of_mem_encode hc
  · exact ⟨none, rfl, by simp⟩

theorem withAuthority?_scheme (h : Url.withAuthority? scheme k cs query fragment = some u) :
    u.scheme = scheme := by
  rw [Url.withAuthority?] at h
  simp only [Option.bind_eq_bind, Option.bind_eq_some_iff, Option.pure_def, Option.some.injEq] at h
  obtain ⟨a, -, rfl⟩ := h
  rfl

theorem withAuthority?_spec (h : Url.withAuthority? scheme k cs query fragment = some u)
    (hfile : k ≠ .file) (hdomain : k.isSpecial = true → domain? u.host.toList = some u.host) :
    ∃ authority path, IsBody k (bodyText authority path) ∧
      u = ⟨scheme, authority, u.host, String.ofList path, Url.queryText k query,
        Url.fragmentText fragment⟩ := by
  rw [Url.withAuthority?] at h
  simp only [Option.bind_eq_bind, Option.bind_eq_some_iff, Option.pure_def, Option.some.injEq] at h
  obtain ⟨a, ha, rfl⟩ := h
  have hauthority := isAuthority_of_authority? ha hdomain
  split
  · next hempty =>
      have hspecial : k.isSpecial ≠ true := fun hk => by simp [hk] at hempty
      have hbody : IsBody k ('/' :: '/' :: (a.text.toList ++ joined [])) :=
        .asked hauthority (by simp) fun hk => absurd hk hspecial
      exact ⟨some a.text, [], by simpa [bodyText, joined] using hbody, rfl⟩
  · obtain ⟨ss, hne, hs, hrooted⟩ :=
      exists_joined_of_rooted hfile (withoutSlash k (a.rest ++ (cutAuthority k cs).2))
    refine ⟨some a.text, joined ss, ?_, by simp [hrooted]⟩
    simpa [bodyText] using IsBody.asked hauthority hs fun _ => hne

theorem other?_spec (h : Url.other? scheme cs query fragment = some u)
    (hchar : ∀ c ∈ cs, c ≠ '#' ∧ c ≠ '?') (hsolid : (u.isPlain && u.path.isEmpty) = false) :
    ∃ authority path, IsBody .other (bodyText authority path) ∧
      u = ⟨scheme, authority, u.host, String.ofList path, Url.queryText .other query,
        Url.fragmentText fragment⟩ := by
  rw [Url.other?] at h
  split at h
  · exact withAuthority?_spec h (by decide) (by simp [SchemeKind.isSpecial])
  · next rest hnot hshown =>
      obtain rfl := Option.some.inj h
      obtain ⟨ss, hne, hs, hrooted⟩ := exists_joined_of_rooted (k := .other) (by decide) rest
      exact ⟨none, joined ss, .rooted rfl hs hne, by simp [hrooted]⟩
  · next hnot hslash =>
      obtain rfl := Option.some.inj h
      have hne : encode isControl (shown cs) ≠ [] := by
        intro hnil
        simp [Url.isPlain, hnil] at hsolid
      have hhead : ∀ c ∈ (encode isControl (shown cs)).head?, c ≠ '/' := by
        rintro c hc rfl
        rcases head_encode hc with hc | hc
        · obtain ⟨rest, hrest⟩ := List.head?_eq_some_iff.mp hc
          exact hslash rest hrest
        · exact absurd hc (by decide)
      have hwritten : ∀ c ∈ encode isControl (shown cs),
          isControl c = false ∧ c ≠ '#' ∧ c ≠ '?' := by
        intro c hc
        refine ⟨isControl_escaping.of_mem_encode hc, ?_⟩
        rcases mem_encode hc with ⟨hc, -⟩ | hc
        · exact hchar c (List.mem_filter.mp hc).1
        · exact (isWritten_of_pathSet (pathSet_escaping.escapes c hc)).2
      have hbody := IsBody.plain (k := .other) rfl hwritten hhead hne
      exact ⟨none, encode isControl (shown cs),
        by simpa [bodyText, isPrefixOf_slashes hhead] using hbody, rfl⟩

theorem exists_canonical {path : List Char} {authority : Option String}
    (hbody : IsBody k (bodyText authority path)) (name : List Char) (host : String)
    (query fragment : List Char) :
    ∃ ps : Parts, ps.IsCanonical k ∧
      (Url.mk (String.ofList name) authority host (String.ofList path) (Url.queryText k query)
        (Url.fragmentText fragment)).toString.toList = name ++ ':' :: ps.text := by
  obtain ⟨q, hq, hquery⟩ := queryText_spec k query
  obtain ⟨f, hf, hfragment⟩ := fragmentText_spec fragment
  rw [hq, hf]
  exact ⟨⟨_, q, f⟩, ⟨hbody, hquery, hfragment⟩, toList_toString name path authority host q f⟩

theorem ofName_eq_file {name : String} (h : SchemeKind.ofName name = .file) : name = "file" := by
  rw [SchemeKind.ofName.eq_def] at h
  split at h <;> first | rfl | cases h

theorem file?_scheme (h : Url.file? cs query fragment = some u) : u.scheme = "file" := by
  rw [Url.file?] at h
  split at h
  · simp only at h
    split at h
    · obtain rfl := Option.some.inj h
      rfl
    · obtain ⟨host, -, h⟩ := Option.bind_eq_some_iff.mp h
      obtain rfl := Option.some.inj h
      rfl
  · obtain rfl := Option.some.inj h
    rfl
  · obtain rfl := Option.some.inj h
    rfl

theorem isScheme_lower {name : List Char} (h : isSchemeName name = true) :
    IsScheme (name.map Char.toLower) := by
  have hchar := fun c (hc : c ∈ name) => (isSchemeChar_spec (isSchemeChar_of_mem h hc)).lower
  refine ⟨?_, ?_⟩
  · cases name with
    | nil => cases h
    | cons c name =>
        rw [isSchemeName, Bool.and_eq_true] at h
        have hletter := of_ascii (P := fun c => isLetter c = true → isLetter c.toLower = true)
          (by decide +kernel) (toNat_lt_of_isLetter h.1) h.1
        rw [List.map_cons, isSchemeName, hletter, Bool.true_and, List.all_map, List.all_eq_true]
        exact fun x hx => (hchar x (List.mem_cons_of_mem c hx)).1
  · rw [List.map_map]
    exact List.map_congr_left fun c hc => (hchar c hc).2

theorem parse?_spec {text : String} (h : Url.parse? text = some u) (hfile : u.scheme ≠ "file")
    (hdomain : (SchemeKind.ofName u.scheme).isSpecial = true → domain? u.host.toList = some u.host)
    (hsolid : (u.isPlain && u.path.isEmpty) = false) :
    ∃ (name : List Char) (ps : Parts), IsScheme name ∧ u.scheme = String.ofList name ∧
      ps.IsCanonical (SchemeKind.ofName u.scheme) ∧
        u.toString.toList = name ++ ':' :: ps.text := by
  simp only [Url.parse?] at h
  split at h
  · next cs hcolon =>
      have hchar : ∀ c ∈ cs, c ≠ '#' ∧ c ≠ '?' := by
        intro c hc
        have hrest := mem_of_mem_cut (hcolon ▸ List.mem_cons_of_mem ':' hc)
        obtain ⟨hfront, hmark⟩ := notMem_of_mem_cut hrest
        obtain ⟨-, hhash⟩ := notMem_of_mem_cut hfront
        simpa using And.intro hhash hmark
      split at h
      · next hname =>
          have hscheme := isScheme_lower hname
          generalize (shown _).map Char.toLower = name at h hscheme
          generalize (cut ['?'] _).2 = query at h
          generalize (cut ['#'] _).2 = fragment at h
          have hform : ∃ authority path,
              IsBody (SchemeKind.ofName (String.ofList name)) (bodyText authority path) ∧
                u = ⟨String.ofList name, authority, u.host, String.ofList path,
                  Url.queryText (SchemeKind.ofName (String.ofList name)) query,
                  Url.fragmentText fragment⟩ := by
            split at h
            · exact absurd (file?_scheme h) hfile
            · next p hkind =>
                have hu := withAuthority?_scheme h
                rw [hkind]
                exact withAuthority?_spec h (by rintro ⟨⟩) fun _ => hdomain (by rw [hu, hkind]; rfl)
            · next hkind =>
                rw [hkind]
                exact other?_spec h hchar hsolid
          obtain ⟨authority, path, hbody, hu⟩ := hform
          have hname : u.scheme = String.ofList name := by rw [hu]
          obtain ⟨ps, hps, htext⟩ := exists_canonical hbody name u.host query fragment
          exact ⟨name, ps, hscheme, hname, hname ▸ hps, by rw [hu]; exact htext⟩
      · cases h
  · cases h

end Read

end LanguageService.Uri

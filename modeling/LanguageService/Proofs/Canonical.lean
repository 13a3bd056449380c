import Mathlib.Data.List.Basic
import LanguageService.Proofs.FileNames
import LanguageService.Proofs.UrlForms

namespace LanguageService

namespace Uri

section Slash

variable {k : SchemeKind} {t : List Char}

/-- The form of what stands before a slash that has been dropped: nothing, the same, or a host on
the web without a path. -/
inductive IsDropped (k : SchemeKind) : List Char → Prop where
  | nothing : IsDropped k []
  | form {ps : Parts} (h : ps.IsCanonical k) : IsDropped k ps.text
  | bare {text host} (hk : k.isSpecial = true) (ha : IsAuthority k text host) :
    IsDropped k ('/' :: '/' :: text)

theorem joined_append (ss : List (List Char)) (s : List Char) :
    joined (ss ++ [s]) = joined ss ++ '/' :: s := by
  simp [joined]

theorem IsSegment.eq_nil {s a : List Char} (hs : IsSegment k s) (h : a ++ '/' :: s = t ++ ['/']) :
    s = [] ∧ a = t := by
  rcases List.eq_nil_or_concat' s with rfl | ⟨s, c, rfl⟩
  · exact ⟨rfl, (List.append_singleton_inj.mp h).1⟩
  · have hconcat : (a ++ '/' :: s) ++ [c] = t ++ ['/'] := by rw [← h]; simp
    obtain ⟨-, rfl⟩ := List.append_singleton_inj.mp hconcat
    exact absurd (hs.char '/' (by simp)).2 (by simp [isSlash])

theorem lead_append {ss : List (List Char)} (hne : ss ≠ [])
    (hlast : (joined ss).getLast? ≠ some '/') (s : List Char) : lead (ss ++ [s]) = lead ss := by
  cases ss with
  | nil => exact absurd rfl hne
  | cons x ss =>
      rw [lead, lead, joined_append]
      rw [joined, List.flatMap_cons, List.cons_append] at hlast ⊢
      cases hx : x ++ ss.flatMap ('/' :: ·) with
      | nil => simp [hx] at hlast
      | cons c cs => rfl

theorem IsBody.dropped {body : List Char} (h : IsBody k body) (hbody : body = t ++ ['/'])
    (hlast : t.getLast? ≠ some '/') :
    t = [] ∨ IsBody k t ∨
      ∃ text host, k.isSpecial = true ∧ IsAuthority k text host ∧ t = '/' :: '/' :: text := by
  cases h with
  | @asked text host ss ha hs hne =>
      rcases List.eq_nil_or_concat' ss with rfl | ⟨ss, s, rfl⟩
      · rcases List.eq_nil_or_concat' text with rfl | ⟨text, c, rfl⟩
        · have hconcat : ['/'] ++ ['/'] = t ++ ['/'] := hbody
          obtain ⟨rfl, -⟩ := List.append_singleton_inj.mp hconcat
          exact absurd rfl hlast
        · have hconcat : ('/' :: '/' :: text) ++ [c] = t ++ ['/'] := by
            rw [← hbody]
            simp [joined]
          obtain ⟨-, rfl⟩ := List.append_singleton_inj.mp hconcat
          exact absurd (ha.char '/' (by simp)).notSlash (by decide)
      · rw [joined_append, ← List.append_assoc, ← List.cons_append, ← List.cons_append] at hbody
        obtain ⟨rfl, rfl⟩ := (hs s (by simp)).eq_nil hbody
        have hfront : ∀ x ∈ ss, IsSegment k x := fun x hx => hs x (List.mem_append_left _ hx)
        by_cases hbare : k.isSpecial = true ∧ ss = []
        · obtain ⟨hk, rfl⟩ := hbare
          exact .inr (.inr ⟨text, host, hk, ha, by simp [joined]⟩)
        · exact .inr (.inl (.asked ha hfront fun hk hnil => hbare ⟨hk, hnil⟩))
  | @rooted ss hk hs hne =>
      rcases List.eq_nil_or_concat' ss with rfl | ⟨ss, s, rfl⟩
      · exact absurd rfl hne
      · rw [joined_append, ← List.append_assoc] at hbody
        obtain ⟨rfl, rfl⟩ := (hs s (by simp)).eq_nil hbody
        by_cases hnil : ss = []
        · subst hnil
          exact .inl rfl
        · have hpath : (joined ss).getLast? ≠ some '/' := by
            intro hslash
            rw [List.getLast?_append, hslash] at hlast
            exact hlast rfl
          rw [lead_append hnil hpath]
          exact .inr (.inl (.rooted hk (fun x hx => hs x (List.mem_append_left _ hx)) hnil))
  | plain hk hchar hhead hne =>
      subst hbody
      have hfront : t ≠ [] := by
        rintro rfl
        exact hhead '/' rfl rfl
      refine .inr (.inl (.plain hk (fun c hc => hchar c (List.mem_append_left _ hc)) ?_ hfront))
      intro c hc
      refine hhead c ?_
      rw [List.head?_append, hc]
      rfl

theorem Parts.IsCanonical.dropped {ps : Parts} (h : ps.IsCanonical k)
    (htext : ps.text = t ++ ['/']) (hlast : t.getLast? ≠ some '/') : IsDropped k t := by
  obtain ⟨body, query, fragment⟩ := ps
  have hform : ∀ ps : Parts, ps.IsCanonical k → ps.text = t → IsDropped k t :=
    fun ps hps ht => ht ▸ .form hps
  cases fragment with
  | some f =>
      rcases List.eq_nil_or_concat' f with rfl | ⟨f, c, rfl⟩
      · have hconcat : (body ++ marked '?' query) ++ ['#'] = t ++ ['/'] := htext
        exact absurd (List.append_singleton_inj.mp hconcat).2 (by decide)
      · have hconcat : (body ++ marked '?' query ++ '#' :: f) ++ [c] = t ++ ['/'] := by
          rw [← htext]
          simp [Parts.text, marked]
        obtain ⟨rfl, rfl⟩ := List.append_singleton_inj.mp hconcat
        refine hform ⟨body, query, some f⟩ ⟨h.body, h.query, fun x hx c hc => ?_⟩ rfl
        obtain rfl := Option.some.inj hx
        exact h.fragment _ rfl c (List.mem_append_left _ hc)
  | none =>
      cases query with
      | some q =>
          rcases List.eq_nil_or_concat' q with rfl | ⟨q, c, rfl⟩
          · have hconcat : body ++ ['?'] = t ++ ['/'] := by
              rw [← htext]
              simp [Parts.text, marked]
            exact absurd (List.append_singleton_inj.mp hconcat).2 (by decide)
          · have hconcat : (body ++ '?' :: q) ++ [c] = t ++ ['/'] := by
              rw [← htext]
              simp [Parts.text, marked]
            obtain ⟨rfl, rfl⟩ := List.append_singleton_inj.mp hconcat
            refine hform ⟨body, some q, none⟩ ⟨h.body, fun x hx c hc => ?_, by simp⟩
              (by simp [Parts.text, marked])
            obtain rfl := Option.some.inj hx
            exact h.query _ rfl c (List.mem_append_left _ hc)
      | none =>
          have hbody : body = t ++ ['/'] := by simpa [Parts.text, marked] using htext
          rcases IsBody.dropped h.body hbody hlast with rfl | hleft | ⟨text, host, hk, ha, rfl⟩
          · exact .nothing
          · exact hform ⟨t, none, none⟩ ⟨hleft, by simp, by simp⟩ (by simp [Parts.text, marked])
          · exact .bare hk ha

end Slash

end Uri

namespace DocumentUri

section Slash

variable {cs : List Char}

theorem dropSlash_cases (cs : List Char) : dropSlash cs = cs ∨
    ∃ rest, cs.reverse = '/' :: rest ∧ rest.head? ≠ some '/' ∧ dropSlash cs = rest.reverse := by
  rw [dropSlash]
  split
  · exact .inl rfl
  · next rest hnot hreverse =>
      refine .inr ⟨rest, hreverse, fun hhead => ?_, rfl⟩
      obtain ⟨tail, htail⟩ := List.head?_eq_some_iff.mp hhead
      exact hnot tail htail
  · exact .inl rfl

theorem dropSlash_of_last (h : cs.getLast? ≠ some '/') : dropSlash cs = cs := by
  rcases dropSlash_cases cs with hsame | ⟨rest, hreverse, -, -⟩
  · exact hsame
  · refine absurd ?_ h
    rw [← List.head?_reverse, hreverse]
    rfl

theorem dropSlash_ne (h : dropSlash cs ≠ cs) :
    cs = dropSlash cs ++ ['/'] ∧ (dropSlash cs).getLast? ≠ some '/' := by
  rcases dropSlash_cases cs with hsame | ⟨rest, hreverse, hhead, hdrop⟩
  · exact absurd hsame h
  · rw [hdrop, List.getLast?_reverse]
    exact ⟨by rw [← List.reverse_cons, ← hreverse, List.reverse_reverse], hhead⟩

theorem dropSlash_slash (h : cs.getLast? ≠ some '/') : dropSlash (cs ++ ['/']) = cs := by
  have hreverse : (cs ++ ['/']).reverse = '/' :: cs.reverse := by simp
  rw [← List.head?_reverse] at h
  rw [dropSlash, hreverse]
  split
  · next htwo =>
      rw [(List.cons.inj htwo).2] at h
      exact absurd rfl h
  · next hone =>
      rw [← (List.cons.inj hone).2, List.reverse_reverse]
  · next hnot => exact absurd rfl (hnot cs.reverse)

theorem dropSlash_dropSlash (cs : List Char) : dropSlash (dropSlash cs) = dropSlash cs := by
  by_cases h : dropSlash cs = cs
  · rw [h, h]
  · exact dropSlash_of_last (dropSlash_ne h).2

end Slash

section Again

variable {d : Disk} {text : String} {url : Uri.Url} {u : DocumentUri} {k : Uri.SchemeKind}

/-- What is known of a URL, and of the name of its document, where the name is read as itself. -/
structure IsKept (d : Disk) (url : Uri.Url) (u : DocumentUri) : Prop where
  path : ∀ p, url.filePath? = some p → (∃ names, d.resolve p = .ok names) ∨
    (Path.up ∉ p.parts.names ∧ d.Keeps p.parts.names)
  host : url.scheme ≠ "file" → (Uri.SchemeKind.ofName url.scheme).isSpecial = true →
    Uri.domain? url.host.toList = some url.host
  rest : u.text ≠ url.scheme ++ ":"
  blank : u.text.toList.getLast? ≠ some ' '

theorem canonicalize_kept {p : Path} (h : (∃ names, d.resolve p = .ok names) ∨
      (Path.up ∉ p.parts.names ∧ d.Keeps p.parts.names)) :
    Path.up ∉ (d.canonicalize p).parts.names ∧ d.Keeps (d.canonicalize p).parts.names := by
  rw [Disk.canonicalize, Disk.canonical?]
  cases hresolve : d.resolve p with
  | ok names =>
      have hreal := Disk.isReal_of_resolve hresolve
      have hparts := Path.parts_ofNames fun n hn => (hreal.isName n hn).1
      rw [Option.getD_some, hparts]
      exact ⟨fun hmem => (hreal.isName _ hmem).2.1 rfl, hreal.keeps⟩
  | error e =>
      obtain ⟨names, hnames⟩ | hkept := h
      · cases hresolve.symm.trans hnames
      · exact hkept

theorem parse_of_read (hread : Uri.Url.parse? text = some url) (hfile : url.scheme ≠ "file") :
    parse d text = if url.isPlain && url.path.isEmpty then .error (.invalidUri text)
      else .ok ⟨String.ofList (dropSlash url.toString.toList)⟩ := by
  rw [parse, hread]
  simp only [hfile, if_false]

theorem parse_file (hread : Uri.Url.parse? text = some url) (hfile : url.scheme = "file")
    (hparse : parse d text = .ok u) : ∃ p, url.filePath? = some p ∧ ofPath d p = .ok u := by
  rw [parse, hread] at hparse
  simp only [hfile, if_true] at hparse
  cases hp : url.filePath? with
  | none => simp [hp] at hparse
  | some p => exact ⟨p, rfl, by simpa [hp] using hparse⟩

theorem exists_dropped {ps : Uri.Parts} (hps : ps.IsCanonical k) (name : List Char) :
    ∃ t, dropSlash (name ++ ':' :: ps.text) = name ++ ':' :: t ∧ Uri.IsDropped k t := by
  by_cases hsame : dropSlash (name ++ ':' :: ps.text) = name ++ ':' :: ps.text
  · exact ⟨ps.text, hsame, .form hps⟩
  · obtain ⟨hdrop, hlast⟩ := dropSlash_ne hsame
    rcases List.eq_nil_or_concat' ps.text with hnil | ⟨t, c, hconcat⟩
    · rw [hnil] at hdrop
      exact absurd (List.append_singleton_inj.mp hdrop).2 (by decide)
    · have hsplit : (name ++ ':' :: t) ++ [c] = dropSlash (name ++ ':' :: ps.text) ++ ['/'] := by
        rw [← hdrop, hconcat]
        simp
      obtain ⟨ht, rfl⟩ := List.append_singleton_inj.mp hsplit
      refine ⟨t, ht.symm, hps.dropped hconcat fun hslash => hlast ?_⟩
      rw [← ht, List.getLast?_append, List.getLast?_cons, hslash]
      rfl

section Left

variable {name : List Char} (hname : Uri.IsScheme name)

include hname

theorem parse_form {ps : Uri.Parts}
    (hps : ps.IsCanonical (Uri.SchemeKind.ofName (String.ofList name)))
    (hfile : String.ofList name ≠ "file") (hblank : ps.text.getLast? ≠ some ' ')
    (hdrop : dropSlash (name ++ ':' :: ps.text) = name ++ ':' :: ps.text) :
    parse d (String.ofList (name ++ ':' :: ps.text)) =
      .ok ⟨String.ofList (name ++ ':' :: ps.text)⟩ := by
  have hend : ∀ c ∈ ps.text.getLast?, Uri.Url.isEdge c = false := by
    intro c hc
    refine eq_false_of_ne_true fun hedge => hblank ?_
    rw [← (hps.isWritten (List.mem_of_getLast? hc)).edge hedge]
    exact hc
  obtain ⟨url, hurl, hscheme, htext, hsolid⟩ := hps.read rfl fun h => hfile (Uri.ofName_eq_file h)
  rw [parse_of_read ((Uri.Parts.parse?_eq hname hps.isCut hend).trans hurl) (hscheme ▸ hfile),
    hsolid, htext, hdrop]
  rfl

theorem parse_bare {front : List Char} {host : String}
    (ha : Uri.IsAuthority (Uri.SchemeKind.ofName (String.ofList name)) front host)
    (hk : (Uri.SchemeKind.ofName (String.ofList name)).isSpecial = true)
    (hfile : String.ofList name ≠ "file") :
    parse d (String.ofList (name ++ ':' :: '/' :: '/' :: front)) =
      .ok ⟨String.ofList (name ++ ':' :: '/' :: '/' :: front)⟩ := by
  have hcut : Uri.Parts.IsCut ⟨'/' :: '/' :: front, none, none⟩ :=
    ⟨⟨fun h => (ha.written h).2.1 rfl, fun h => (ha.written h).2.2 rfl⟩, by simp⟩
  have htext : Uri.Parts.text ⟨'/' :: '/' :: front, none, none⟩ = '/' :: '/' :: front := by
    simp [Uri.Parts.text, Uri.marked]
  obtain ⟨c, hlast⟩ : ∃ c, front.getLast? = some c := by
    cases hfront : front.getLast? with
    | none => exact absurd (List.getLast?_eq_none_iff.mp hfront) (ha.ne_nil hk)
    | some c => exact ⟨c, rfl⟩
  have hplain := ha.char c (List.mem_of_getLast? hlast)
  have hend : ∀ x ∈ (Uri.Parts.text ⟨'/' :: '/' :: front, none, none⟩).getLast?,
      Uri.Url.isEdge x = false := by
    intro x hx
    rw [htext, List.getLast?_cons, List.getLast?_cons, hlast] at hx
    obtain rfl : c = x := by simpa using hx
    exact hplain.notEdge
  have hparse := Uri.Parts.parse?_eq hname hcut hend
  rw [htext] at hparse
  cases hkind : Uri.SchemeKind.ofName (String.ofList name) with
  | file => exact absurd (Uri.ofName_eq_file hkind) hfile
  | other => simp [hkind, Uri.SchemeKind.isSpecial] at hk
  | web p =>
      rw [hkind] at ha
      have hread := hparse.trans (Uri.read_bare ha hkind)
      have hslash : (name ++ ':' :: '/' :: '/' :: front).getLast? ≠ some '/' := by
        simp only [List.getLast?_append, List.getLast?_cons, hlast, Option.getD_some,
          Option.some_or, ne_eq, Option.some.injEq]
        rintro rfl
        exact absurd hplain.notSlash (by decide)
      have hwritten : (Uri.Url.mk (String.ofList name) (some (String.ofList front)) host
          (String.ofList ['/']) none none).toString.toList =
            name ++ ':' :: '/' :: '/' :: front ++ ['/'] := by
        have htoString := Uri.toList_toString name ['/'] (some (String.ofList front)) host none none
        simpa [Uri.bodyText, Uri.Parts.text, Uri.marked] using htoString
      rw [parse_of_read hread hfile, if_neg (by simp [Uri.Url.isPlain]), hwritten,
        dropSlash_slash hslash]

end Left

/-- A document's name is read as itself, but for the cases that are told apart. -/
theorem parse_again (hread : Uri.Url.parse? text = some url) (hparse : parse d text = .ok u)
    (hkept : IsKept d url u) : parse d u.text = .ok u := by
  by_cases hfile : url.scheme = "file"
  · obtain ⟨p, hp, hpath⟩ := parse_file hread hfile hparse
    obtain ⟨hnames, htext⟩ := ofPath_ok hpath
    obtain ⟨text'⟩ := u
    obtain rfl := htext
    obtain ⟨hup, hkeeps⟩ := canonicalize_kept (hkept.path p hp)
    exact parse_fileText d hnames hup hkeeps
  · rw [parse_of_read hread hfile] at hparse
    split at hparse
    · cases hparse
    · next hsolid =>
        obtain rfl := Except.ok.inj hparse
        obtain ⟨name, ps, hname, hscheme, hps, htext⟩ :=
          Uri.parse?_spec hread hfile (hkept.host hfile) (eq_false_of_ne_true hsolid)
        rw [hscheme] at hps hfile
        obtain ⟨t, ht, hleft⟩ := exists_dropped hps name
        have hdrop : dropSlash url.toString.toList = name ++ ':' :: t := by rw [htext, ht]
        have hrest := hkept.rest
        have hblank := hkept.blank
        rw [hdrop] at hrest hblank ⊢
        rw [String.toList_ofList] at hblank
        cases hleft with
        | nothing =>
            refine absurd ?_ hrest
            rw [hscheme]
            exact String.toList_injective (by simp)
        | form hps =>
            refine parse_form hname hps hfile (fun hlast => hblank ?_) ?_
            · rw [List.getLast?_append, List.getLast?_cons, hlast]
              rfl
            · rw [← hdrop, dropSlash_dropSlash]
        | bare hk ha => exact parse_bare hname ha hk hfile

theorem parse_of_file {p : Path} (hread : Uri.Url.parse? text = some url)
    (hfile : url.scheme = "file") (hp : url.filePath? = some p)
    (huri : (d.canonicalize p).uri? = some u.text) : parse d text = .ok u := by
  rw [parse, hread]
  simp only [hfile, hp, ofPath, huri, if_true]

def linkDisk : Disk where
  entries := [([Path.ofString "d", Path.ofString "b"], .link (Path.ofString "c")),
    ([Path.ofString "d", Path.ofString "c"], .file [])]

theorem documents_again :
    (parse .empty "https://[0:0::1]:443/a/../b/" = .ok ⟨"https://[::1]/b"⟩ ∧
      parse .empty "https://[::1]/b" = .ok ⟨"https://[::1]/b"⟩) ∧
    (parse linkDisk "file:///d/b" = .ok ⟨"file:///d/c"⟩ ∧
      parse linkDisk "file:///d/c" = .ok ⟨"file:///d/c"⟩) ∧
    (parse linkDisk "file:///a/./b%20c/" = .ok ⟨"file:///a/b%20c"⟩ ∧
      parse linkDisk "file:///a/b%20c" = .ok ⟨"file:///a/b%20c"⟩) := by
  have hweb : Uri.Url.parse? "https://[0:0::1]:443/a/../b/" =
      some ⟨"https", some "[::1]", "[::1]", "/b/", none, none⟩ := by decide +kernel
  have hwebName : parse .empty "https://[0:0::1]:443/a/../b/" = .ok ⟨"https://[::1]/b"⟩ := by
    have htext : dropSlash
        (Uri.Url.mk "https" (some "[::1]") "[::1]" "/b/" none none).toString.toList =
          "https://[::1]/b".toList := by decide +kernel
    rw [parse_of_read hweb (by decide), htext]
    rfl
  have hhost : Uri.domain? "[::1]".toList = some "[::1]" := by decide +kernel
  have hlink : Uri.Url.parse? "file:///d/b" =
      some ⟨"file", some "", "", "/d/b", none, none⟩ := by decide +kernel
  have hlinkPath : (Uri.Url.mk "file" (some "") "" "/d/b" none none).filePath? =
      some (Path.ofString "/d/b") := by decide +kernel
  have hlinkName : parse linkDisk "file:///d/b" = .ok ⟨"file:///d/c"⟩ :=
    parse_of_file hlink rfl hlinkPath (by decide +kernel)
  have hfile : Uri.Url.parse? "file:///a/./b%20c/" =
      some ⟨"file", some "", "", "/a/b%20c/", none, none⟩ := by decide +kernel
  have hpath : (Uri.Url.mk "file" (some "") "" "/a/b%20c/" none none).filePath? =
      some (Path.ofString "/a/b c/") := by decide +kernel
  have hfileName : parse linkDisk "file:///a/./b%20c/" = .ok ⟨"file:///a/b%20c"⟩ :=
    parse_of_file hfile rfl hpath (by decide +kernel)
  refine ⟨⟨hwebName, parse_again hweb hwebName ?_⟩, ⟨hlinkName, parse_again hlink hlinkName ?_⟩,
    hfileName, parse_again hfile hfileName ?_⟩
  · exact ⟨fun p hp => by simp [Uri.Url.filePath?] at hp, fun _ _ => hhost, by decide, by decide⟩
  · refine ⟨fun p hp => .inl ?_, fun h => absurd rfl h, by decide, by decide⟩
    obtain rfl := Option.some.inj (hlinkPath.symm.trans hp)
    exact ⟨[Path.ofString "d", Path.ofString "c"], by decide +kernel⟩
  · refine ⟨fun p hp => .inr ?_, fun h => absurd rfl h, by decide, by decide⟩
    obtain rfl := Option.some.inj (hpath.symm.trans hp)
    have hnowhere : linkDisk.resolve (Path.ofNames (Path.ofString "/a/b c/").parts.names) =
        .error .notFound := by decide +kernel
    exact ⟨by decide +kernel, fun there h => by cases hnowhere.symm.trans h⟩

theorem link_missed : parse linkDisk "file:///d/b/" = .ok ⟨"file:///d/b"⟩ ∧
    parse linkDisk "file:///d/b" = .ok ⟨"file:///d/c"⟩ := by
  have hslash : Uri.Url.parse? "file:///d/b/" =
      some ⟨"file", some "", "", "/d/b/", none, none⟩ := by decide +kernel
  have hbare : Uri.Url.parse? "file:///d/b" =
      some ⟨"file", some "", "", "/d/b", none, none⟩ := by decide +kernel
  exact ⟨parse_of_file hslash rfl (p := Path.ofString "/d/b/") (by decide +kernel)
      (by decide +kernel),
    parse_of_file hbare rfl (p := Path.ofString "/d/b") (by decide +kernel) (by decide +kernel)⟩

end Again

/-- The last slash can be all that a URI has beside its scheme. What is left is no URI. -/
theorem slash_missed : parse .empty "untitled:/" = .ok ⟨"untitled:"⟩ ∧
    parse .empty "untitled:" = .error (.invalidUri "untitled:") := by
  have hread : Uri.Url.parse? "untitled:/" = some ⟨"untitled", none, "", "/", none, none⟩ := by
    decide +kernel
  have hleft : Uri.Url.parse? "untitled:" = some ⟨"untitled", none, "", "", none, none⟩ := by
    decide +kernel
  have hplain : (Uri.Url.mk "untitled" none "" "/" none none).isPlain = false := by decide +kernel
  have hplain' : (Uri.Url.mk "untitled" none "" "" none none).isPlain = true := by decide +kernel
  have htext : String.ofList
      (dropSlash (Uri.Url.mk "untitled" none "" "/" none none).toString.toList) = "untitled:" := by
    decide +kernel
  simp [parse, hread, hleft, hplain, hplain', htext]

end DocumentUri

end LanguageService

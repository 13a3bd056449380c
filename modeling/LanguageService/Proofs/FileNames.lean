import LanguageService.Proofs.LibraryRoots
import LanguageService.Proofs.Serialized

/-!
The URIs of files. A path that leads somewhere is read from its URI again. One that leads nowhere
may have double dots in it, or lead through a link without the slash at its end.
-/
namespace LanguageService

namespace Path

def fileText (names : List Bytes) : String :=
  "file://" ++ if names.isEmpty then "/"
    else String.ofList (names.flatMap fun n => '/' :: Uri.encodeName n)

def segments (names : List Bytes) : List (List Char) :=
  if names.isEmpty then [[]] else names.map Uri.encodeName

theorem uri?_eq_some {p : Path} {text : String} :
    p.uri? = some text ↔ (parts p).absolute = true ∧ fileText (parts p).names = text := by
  rw [uri?, fileText]
  split
  · next habs => simp [habs]
  · next habs => simp [habs]

theorem fileText_eq (names : List Bytes) : fileText names =
    String.ofList ("file".toList ++ ':' :: '/' :: '/' :: Uri.joined (segments names)) := by
  cases names with
  | nil => rfl
  | cons n names =>
      refine String.toList_injective ?_
      simp [fileText, segments, Uri.joined, List.flatMap_map]

theorem decode_joined (names : List Bytes) :
    Uri.decode (Uri.joined (names.map Uri.encodeName)) = names.flatMap (slash :: ·) := by
  induction names with
  | nil => rfl
  | cons n names ih =>
      rw [List.map_cons, Uri.joined, List.flatMap_cons, List.cons_append, Uri.decode_slash,
        Uri.decode_encodeName, List.flatMap_cons, List.cons_append]
      exact congrArg (slash :: n ++ ·) ih

theorem decode_segments (names : List Bytes) :
    Uri.decode (Uri.joined (segments names)) = ofNames names := by
  cases names with
  | nil => rfl
  | cons n names => exact decode_joined (n :: names)

theorem filter_of_isName {names : List Bytes} (h : ∀ n ∈ names, IsName n) :
    names.filter (fun n => !n.isEmpty && n != [dot]) = names :=
  List.filter_eq_self.mpr fun n hn => by simpa using ⟨(h n hn).2.1, (h n hn).2.2⟩

theorem parts_ofNames_slash {names : List Bytes} (h : ∀ n ∈ names, IsName n) :
    parts (ofNames names ++ [slash]) = ⟨true, names⟩ := by
  cases names with
  | nil => rfl
  | cons n names =>
      have happend : ofNames (n :: names) ++ [slash] =
          ((n :: names) ++ [[]]).flatMap (slash :: ·) := by simp [ofNames]
      have hslash : ∀ x ∈ (n :: names) ++ [[]], slash ∉ x := by
        intro x hx
        rcases List.mem_append.mp hx with hx | hx
        · exact (h x hx).1
        · obtain rfl := List.mem_singleton.mp hx
          exact List.not_mem_nil
      have habs : (parts (ofNames (n :: names) ++ [slash])).absolute = true := by
        simp [parts, ofNames]
      have hnames := parts_names_of_absolute habs
      rw [happend, split_names (by simp) hslash, List.filter_cons_of_neg (by simp),
        List.filter_append, filter_of_isName h, ← happend] at hnames
      calc parts (ofNames (n :: names) ++ [slash])
        _ = ⟨(parts (ofNames (n :: names) ++ [slash])).absolute,
              (parts (ofNames (n :: names) ++ [slash])).names⟩ := rfl
        _ = ⟨true, n :: names⟩ := by rw [habs, hnames]; simp

theorem encodeName_ne_nil {n : Bytes} (h : n ≠ []) : Uri.encodeName n ≠ [] := by
  intro hnil
  have hdecoded := Uri.decode_encodeName_self n
  rw [hnil] at hdecoded
  exact h hdecoded.symm

theorem isSegment_encodeName {n : Bytes} (hdot : n ≠ [dot]) (hup : n ≠ up) :
    Uri.IsSegment .file (Uri.encodeName n) := by
  have hdecode := Uri.decode_encodeName_self n
  refine ⟨fun c hc => ?_, ?_, ?_⟩
  · rcases Uri.mem_encodeName hc with hset | hescape
    · simp only [Uri.segmentSet, Bool.or_eq_false_iff] at hset
      have hslash : c ≠ '/' ∧ c ≠ '\\' := by
        constructor <;> rintro rfl <;> simp at hset
      exact ⟨hset.1, by simp [Uri.isSlash, hslash]⟩
    · exact ⟨Uri.pathSet_escaping.escapes c hescape, Uri.not_isSlash_of_isEscape hescape⟩
  · refine eq_false_of_ne_true fun h => hdot ?_
    simp only [Uri.isDot, Bool.or_eq_true, beq_iff_eq] at h
    rcases h with (h | h) | h <;> rw [← hdecode, h] <;> decide
  · refine eq_false_of_ne_true fun h => hup ?_
    simp only [Uri.isDoubleDot, List.any_cons, List.any_nil, Bool.or_false, Bool.or_eq_true,
      beq_iff_eq] at h
    rcases h with h | h | h | h | h | h | h | h | h <;> rw [← hdecode, h] <;> decide

section Segments

variable {names : List Bytes} (hnames : ∀ n ∈ names, IsName n) (hup : up ∉ names)

include hnames hup

theorem isSegment_of_mem_segments : ∀ s ∈ segments names, Uri.IsSegment .file s := by
  rw [segments]
  split
  · exact fun s hs => List.mem_singleton.mp hs ▸ Uri.isSegment_nil .file
  · intro s hs
    obtain ⟨n, hn, rfl⟩ := List.mem_map.mp hs
    exact isSegment_encodeName (hnames n hn).2.2 fun h => hup (h ▸ hn)

theorem rooted_segments : Uri.rooted .file (Uri.joined (segments names)) =
    ⟨String.ofList (Uri.joined (segments names)), false⟩ := by
  have hs := isSegment_of_mem_segments hnames hup
  have hsplit := Uri.splitSegments_append_joined (s := []) (by simp)
    fun x hx c hc => ((hs x hx).char c hc).2
  rw [List.nil_append] at hsplit
  have hdrop : Uri.dropEmpty ([] :: segments names) = segments names := by
    cases names with
    | nil => rfl
    | cons n names =>
        have hne := encodeName_ne_nil (hnames n List.mem_cons_self).2.1
        simp [segments, Uri.dropEmpty, hne]
  have hread : Uri.Trail.addAll .file .start ([] :: segments names) =
      ⟨(segments names).reverse ++ [[]], false⟩ := by
    cases hsegments : segments names with
    | nil => cases names <;> simp [segments] at hsegments
    | cons x xs =>
        have hfirst : Uri.Trail.add .file .start [] true = ⟨[[]], false⟩ := rfl
        rw [Uri.Trail.addAll, hfirst, ← hsegments,
          Uri.Trail.addAll_of_isSegment hs (.inr (List.cons_ne_nil _ _))]
        rintro ⟨⟩
  rw [Uri.rooted, hsplit, hread]
  simp [hdrop, Uri.joined]

theorem parse?_fileText : Uri.Url.parse? (fileText names) =
    some ⟨"file", some "", "", String.ofList (Uri.joined (segments names)), none, none⟩ := by
  have hs := isSegment_of_mem_segments hnames hup
  have hset {c : Char} (hc : c ∈ '/' :: '/' :: Uri.joined (segments names)) :
      Uri.pathSet c = false := by
    rcases List.mem_cons.mp hc with rfl | hc
    · decide
    · rcases List.mem_cons.mp hc with rfl | hc
      · decide
      · exact Uri.pathSet_of_mem_joined hs hc
  have hcut : Uri.Parts.IsCut ⟨'/' :: '/' :: Uri.joined (segments names), none, none⟩ := by
    refine ⟨⟨fun hmem => ?_, fun hmem => ?_⟩, by simp⟩
    · exact absurd (hset hmem) (by decide)
    · exact absurd (hset hmem) (by decide)
  have hfile : Uri.IsScheme "file".toList := ⟨by decide, by decide⟩
  have hparse := Uri.Parts.parse?_eq hfile hcut fun c hc =>
    Uri.not_isEdge_of_pathSet
      (hset (List.mem_of_getLast? (by simpa [Uri.Parts.text, Uri.marked] using hc)))
  simp only [Uri.Parts.text, Uri.marked, List.append_nil] at hparse
  have hkind : Uri.SchemeKind.ofName (String.ofList "file".toList) = .file := rfl
  have hslashes : (Uri.Url.afterSlash? ('/' :: '/' :: Uri.joined (segments names))).bind
      Uri.Url.afterSlash? = some (Uri.joined (segments names)) := rfl
  obtain ⟨rest, hrest⟩ : ∃ rest, Uri.joined (segments names) = '/' :: rest := by
    cases names <;> exact ⟨_, rfl⟩
  have hfront : Uri.cutAuthority .file (Uri.joined (segments names)) =
      ([], Uri.joined (segments names)) := by
    rw [hrest]
    rfl
  rw [fileText_eq, hparse, Uri.Parts.read]
  simp only [hkind, Uri.Url.file?, hslashes, hfront, Uri.marked]
  rw [if_neg (by decide)]
  simp [Uri.Url.fileHost?, Uri.shown, Uri.Url.fileUrl, rooted_segments hnames hup,
    Uri.Url.queryText, Uri.Url.fragmentText]

end Segments

end Path

namespace Disk

variable {d : Disk} {names there : List Bytes} {p : Path}

def Keeps (d : Disk) (names : List Bytes) : Prop :=
  ∀ there, d.resolve (Path.ofNames names) = .ok there → there = names

theorem resolve_ofNames (hnames : ∀ n ∈ names, Path.slash ∉ n ∧ 0 ∉ n)
    (h : d.Leads maxLinks [] names there) : d.resolve (Path.ofNames names) = .ok there := by
  by_cases hne : names = []
  · subst hne
    exact resolve_slash (p := ([] : Path)) (by decide) (.idle rfl (.inl rfl) h)
  · have hpath : Path.ofNames names = names.flatMap (Path.slash :: ·) := by simp [Path.ofNames, hne]
    have hzero : (Path.ofNames names).contains 0 = false := by
      rw [hpath, List.contains_eq_mem, decide_eq_false_iff_not, List.mem_flatMap]
      rintro ⟨m, hm, hmem⟩
      rcases List.mem_cons.mp hmem with hmem | hmem
      · exact absurd hmem (by decide)
      · exact (hnames m hm).2 hmem
    obtain ⟨n, rest, rfl⟩ := List.exists_cons_of_ne_nil hne
    obtain ⟨tail, htail⟩ : ∃ tail, Path.ofNames (n :: rest) = Path.slash :: tail := ⟨_, rfl⟩
    have hsplit := Path.split_names hne fun m hm => (hnames m hm).1
    rw [← hpath, htail, Path.split_cons_slash, List.cons.injEq] at hsplit
    rw [htail] at hzero ⊢
    exact resolve_slash hzero (hsplit.2 ▸ h)

theorem IsReal.keeps (h : d.IsReal names) : d.Keeps names := by
  intro there hthere
  have hself := resolve_ofNames (fun n hn => ⟨(h.isName n hn).1.1, (h.isName n hn).2.2⟩) h.leads
  exact Except.ok.inj (hthere.symm.trans hself)

theorem resolve_parts (h : d.resolve p = .ok there) :
    d.resolve (Path.ofNames p.parts.names) = .ok there := by
  obtain ⟨hzero, rest, rfl, hleads⟩ := resolve_ok h
  have hnames : (Path.parts (Path.slash :: rest)).names =
      (Path.split rest).filter fun n => !n.isEmpty && n != [Path.dot] := by
    rw [Path.parts_names_of_absolute (by simp [Path.parts]), Path.split_cons_slash,
      List.filter_cons_of_neg (by simp)]
  have hkept : d.Leads maxLinks []
      ([] ++ (Path.split rest).filter fun n => !n.isEmpty && n != [Path.dot]) there :=
    Leads.filter hleads
  rw [hnames]
  refine resolve_ofNames (fun n hn => ?_) hkept
  have hn := (List.mem_filter.mp hn).1
  have hzero : 0 ∉ Path.slash :: rest := by simpa using hzero
  exact ⟨Path.slash_notMem_of_mem_split hn, fun hmem =>
    hzero (List.mem_cons_of_mem _ (Path.mem_of_mem_split hn hmem))⟩

end Disk

namespace DocumentUri

variable {d : Disk} {p : Path}

theorem ofPath_ok {u : DocumentUri} (h : ofPath d p = .ok u) :
    (∀ n ∈ (d.canonicalize p).parts.names, Path.IsName n) ∧
      u.text = Path.fileText (d.canonicalize p).parts.names := by
  rw [ofPath] at h
  cases htext : (d.canonicalize p).uri? with
  | none => simp [htext] at h
  | some text =>
      obtain ⟨habs, rfl⟩ := Path.uri?_eq_some.mp htext
      simp only [htext, Except.ok.injEq] at h
      exact ⟨fun n hn => Path.isName_of_mem_parts habs hn, h ▸ rfl⟩

theorem ofPath_of_parts {names : List Bytes} (hparts : p.parts = ⟨true, names⟩)
    (hkeeps : d.Keeps names) : ofPath d p = .ok ⟨Path.fileText names⟩ := by
  have habs : (Path.parts p).absolute = true := by rw [hparts]
  have hisName : ∀ n ∈ names, Path.IsName n := fun n hn =>
    Path.isName_of_mem_parts habs (by rw [hparts]; exact hn)
  have huri : (d.canonicalize p).uri? = some (Path.fileText names) := by
    refine Path.uri?_eq_some.mpr ?_
    rw [Disk.canonicalize, Disk.canonical?]
    cases hresolve : d.resolve p with
    | error e => simp [hparts]
    | ok there =>
        have hthere := Disk.resolve_parts hresolve
        rw [hparts] at hthere
        obtain rfl := hkeeps there hthere
        simp [Path.parts_ofNames hisName]
  rw [ofPath]
  simp only [huri]

theorem filePath?_cases (path : String) (query fragment : Option String) :
    ∃ p, Uri.Url.filePath? ⟨"file", some "", "", path, query, fragment⟩ = some p ∧
      (p = Uri.decode path.toList ∨ p = Uri.decode path.toList ++ [Path.slash]) := by
  rw [Uri.Url.filePath?, if_pos ⟨rfl, rfl⟩]
  simp only
  split
  · refine ⟨_, rfl, ?_⟩
    split
    · exact .inr rfl
    · exact .inl rfl
  · exact ⟨_, rfl, .inl rfl⟩

theorem parse_fileText (d : Disk) {names : List Bytes} (hnames : ∀ n ∈ names, Path.IsName n)
    (hup : Path.up ∉ names) (hkeeps : d.Keeps names) :
    parse d (Path.fileText names) = .ok ⟨Path.fileText names⟩ := by
  obtain ⟨p, hp, hspelled⟩ := filePath?_cases (String.ofList (Uri.joined (Path.segments names)))
    none none
  rw [String.toList_ofList, Path.decode_segments] at hspelled
  have hparts : Path.parts p = ⟨true, names⟩ := by
    rcases hspelled with rfl | rfl
    · exact Path.parts_ofNames hnames
    · exact Path.parts_ofNames_slash hnames
  rw [parse, Path.parse?_fileText hnames hup]
  simp only [if_true, hp]
  exact ofPath_of_parts hparts hkeeps

end DocumentUri

end LanguageService

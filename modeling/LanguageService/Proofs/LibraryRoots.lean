import LanguageService.Analysis
import LanguageService.Config
import LanguageService.Proofs.Links

namespace LanguageService

namespace Library

variable {d : Disk} {p root : Path}

structure Marked (d : Disk) (root : Path) (names : List Bytes) : Prop where
  spelling : root = Path.ofNames names
  isName : ∀ n ∈ names, Path.IsName n
  noZero : ∀ n ∈ names, (0 : UInt8) ∉ n
  isDir : ∃ there, d.Leads Disk.maxLinks [] names there ∧ d.entry? there = some .dir

theorem marked_of_isFile {names : List Bytes} (hname : ∀ n ∈ names, Path.IsName n)
    (h : d.isFile ((Path.ofNames names).join marker) = true) :
    Marked d (Path.ofNames names) names := by
  obtain ⟨there, hthere⟩ := Disk.resolve_of_isFile h
  rw [Path.join_ofNames hname] at hthere
  obtain ⟨hzero, rest, hrest, hleads⟩ := Disk.resolve_ok hthere
  have hmarker : Path.slash ∉ marker := by decide +kernel
  have hsplit := @Path.split_names (names ++ [marker]) (by simp) (by
    intro n hn
    rcases List.mem_append.mp hn with hn | hn
    · exact (hname n hn).1
    · obtain rfl : n = marker := by simpa using hn
      exact hmarker)
  rw [Path.ofNames, if_neg (by simp)] at hrest hzero
  rw [hrest, Path.split_cons_slash, List.cons.injEq] at hsplit
  rw [hsplit.2] at hleads
  obtain ⟨mid, hmid, j, -, hlast⟩ := hleads.split
  refine ⟨rfl, hname, fun n hn hmem => ?_, mid, hmid, hlast.dir_of_cons⟩
  simp only [List.contains_eq_mem, decide_eq_false_iff_not, List.mem_flatMap, not_exists,
    not_and] at hzero
  exact hzero n (List.mem_append_left _ hn) (List.mem_cons_of_mem _ hmem)

theorem not_isFile_of_relative {names : List Bytes}
    (hname : ∀ n ∈ names, Path.slash ∉ n ∧ n ≠ []) :
    d.isFile (Path.join (Path.ofNames names).tail marker) = false := by
  refine eq_false_of_ne_true fun hfile => ?_
  obtain ⟨there, hthere⟩ := Disk.resolve_of_isFile hfile
  obtain ⟨-, rest, hrest, -⟩ := Disk.resolve_ok hthere
  have hmarker : Path.slash ∉ marker := by decide +kernel
  cases names with
  | nil =>
      have hjoin : Path.join (Path.ofNames []).tail marker = marker := rfl
      rw [hjoin] at hrest
      exact hmarker (by simp [hrest])
  | cons n names =>
      obtain ⟨hslash, hne⟩ := hname n (by simp)
      cases n with
      | nil => exact hne rfl
      | cons b bs =>
          have hhead : (Path.join (Path.ofNames ((b :: bs) :: names)).tail marker).head? =
              some b := by
            simp only [Path.ofNames, List.isEmpty_cons, Bool.false_eq_true, ↓reduceIte,
              List.flatMap_cons, List.cons_append, List.tail_cons, Path.join]
            split <;> rfl
          rw [hrest] at hhead
          have hb : Path.slash = b := by simpa using hhead
          exact hslash (by simp [hb])

theorem marked_of_rootAbove (h : rootAbove d p = some root) : ∃ names, Marked d root names := by
  simp only [rootAbove, Path.findAbove?] at h
  obtain ⟨n, -, hn⟩ := List.exists_of_findSome?_eq_some h
  simp only [Option.ite_none_right_eq_some, Option.some.injEq] at hn
  obtain ⟨hfile, rfl⟩ := hn
  simp only [Path.Parts.front, Path.ofParts] at hfile ⊢
  split
  · next habs =>
      rw [if_pos habs] at hfile
      exact ⟨_, marked_of_isFile (fun m hm =>
        Path.isName_of_mem_parts habs (List.mem_of_mem_take hm)) hfile⟩
  · next habs =>
      rw [if_neg habs, not_isFile_of_relative fun m hm =>
        Path.spelled_of_mem_parts (List.mem_of_mem_take hm)] at hfile
      cases hfile

theorem resolve_of_marked {names : List Bytes} (h : Marked d root names)
    (hparts : p.parts = root.parts) : ∃ there, d.resolve p = .ok there := by
  obtain ⟨there, hthere, hdir⟩ := h.isDir
  rw [h.spelling, Path.parts_ofNames h.isName] at hparts
  have habs : (Path.parts p).absolute = true := by rw [hparts]
  have hnames : names = (Path.split p).filter fun n => !n.isEmpty && n != [Path.dot] := by
    rw [← Path.parts_names_of_absolute habs, hparts]
  have hzero : p.contains 0 = false := by
    rw [List.contains_eq_mem, decide_eq_false_iff_not]
    intro hmem
    obtain hslash | ⟨n, hn, hmem⟩ := Path.mem_split hmem
    · exact absurd hslash (by decide)
    · by_cases hkept : (!n.isEmpty && n != [Path.dot]) = true
      · refine h.noZero n ?_ hmem
        rw [hnames]
        exact List.mem_filter.mpr ⟨hn, hkept⟩
      · have hn : n = [] ∨ n = [Path.dot] := by
          by_cases hnil : n = []
          · exact .inl hnil
          · exact .inr (by simpa [hnil] using hkept)
        rcases hn with rfl | rfl
        · simp at hmem
        · exact absurd hmem (by decide)
  cases p with
  | nil => simp [Path.parts] at habs
  | cons b rest =>
      obtain rfl : b = Path.slash := by simpa [Path.parts] using habs
      rw [Path.split_cons_slash, List.filter_cons_of_neg (by simp)] at hnames
      rw [hnames] at hthere
      have hleads : d.Leads Disk.maxLinks [] ([] ++ Path.split rest) there := hthere.of_filter hdir
      exact ⟨there, Disk.resolve_slash hzero hleads⟩

theorem libraryRoot_cases {c : Config} {u : DocumentUri}
    (h : u.libraryRoot d (c.libraryRoot d) = some root) :
    (∃ names, Marked d root names) ∨ c.libraryRoot d = some root := by
  rw [DocumentUri.libraryRoot] at h
  cases habove : u.path?.bind (rootAbove d) with
  | none => exact .inr (by simpa [habove] using h)
  | some r =>
      obtain rfl : r = root := by simpa [habove] using h
      obtain ⟨p, -, hp⟩ := Option.bind_eq_some_iff.mp habove
      exact .inl (marked_of_rootAbove hp)

theorem eq_of_marked_of_default {c : Config} {q r : Path} {names : List Bytes}
    (hq : Marked d q names) (hr : c.libraryRoot d = some r) (hparts : r.parts = q.parts) :
    r = q := by
  obtain ⟨p, -, rfl⟩ := Option.map_eq_some_iff.mp hr
  rw [Disk.canonicalize, Disk.canonical?] at hparts ⊢
  cases hresolve : d.resolve p with
  | ok there =>
      simp only [hresolve, Option.getD_some] at hparts ⊢
      rw [hq.spelling, Path.parts_ofNames hq.isName,
        Path.parts_ofNames fun n hn => ((Disk.isReal_of_resolve hresolve).isName n hn).1,
        Path.Parts.mk.injEq] at hparts
      rw [hq.spelling, hparts.2]
  | error e =>
      simp only [hresolve, Option.getD_none] at hparts
      obtain ⟨there, hthere⟩ := resolve_of_marked hq hparts
      rw [hthere] at hresolve
      cases hresolve

theorem libraryRoot_eq_of_parts {c : Config} {u v : DocumentUri} {q r : Path}
    (hq : u.libraryRoot d (c.libraryRoot d) = some q)
    (hr : v.libraryRoot d (c.libraryRoot d) = some r) (hparts : q.parts = r.parts) : q = r := by
  rcases libraryRoot_cases hq with ⟨ns, hq⟩ | hq
  · rcases libraryRoot_cases hr with ⟨ms, hr⟩ | hr
    · rw [hq.spelling, hr.spelling, Path.parts_ofNames hq.isName, Path.parts_ofNames hr.isName,
        Path.Parts.mk.injEq] at hparts
      rw [hq.spelling, hr.spelling, hparts.2]
    · exact (eq_of_marked_of_default hq hr hparts.symm).symm
  · rcases libraryRoot_cases hr with ⟨ms, hr⟩ | hr
    · exact eq_of_marked_of_default hr hq hparts
    · exact Option.some.inj (hq.symm.trans hr)

end Library

end LanguageService

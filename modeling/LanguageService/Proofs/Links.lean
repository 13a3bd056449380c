import LanguageService.Disk
import LanguageService.Proofs.PathParts

namespace LanguageService

namespace Path

def up : Bytes := [dot, dot]

def IsIdle (n : Bytes) : Prop := n = [] ∨ n = [dot]

structure IsDown (n : Bytes) : Prop where
  nonempty : n ≠ []
  notDot : n ≠ [dot]
  notUp : n ≠ up
  short : n.length ≤ 255

theorem IsDown.counts {n : Bytes} (h : IsDown n) : (!n.isEmpty && n != [dot]) = true := by
  simp [h.nonempty, h.notDot]

theorem isIdle_iff {n : Bytes} : (!n.isEmpty && n != [dot]) = false ↔ IsIdle n := by
  rw [IsIdle, ← List.isEmpty_iff, Bool.and_eq_false_iff]
  simp

end Path

namespace DiskEntry

def IsLink (e : DiskEntry) : Prop := ∃ target, e = link target

end DiskEntry

namespace Disk

inductive Leads (d : Disk) : Nat → List Bytes → List Bytes → List Bytes → Prop where
  | done {k : Nat} {here : List Bytes} : Leads d k here [] here
  | idle {k : Nat} {here ns there : List Bytes} {n : Bytes} (hdir : d.entry? here = some .dir)
      (hn : Path.IsIdle n) (h : Leads d k here ns there) : Leads d k here (n :: ns) there
  | up {k : Nat} {here ns there : List Bytes} (hdir : d.entry? here = some .dir)
      (h : Leads d k here.dropLast ns there) : Leads d k here (Path.up :: ns) there
  | down {k : Nat} {here ns there : List Bytes} {n : Bytes} {e : DiskEntry}
      (hdir : d.entry? here = some .dir) (hn : Path.IsDown n)
      (he : d.entry? (here ++ [n]) = some e) (hlink : ¬ e.IsLink)
      (h : Leads d k (here ++ [n]) ns there) : Leads d k here (n :: ns) there
  | follow {k : Nat} {here ns there : List Bytes} {n : Bytes} {target : Path}
      (hdir : d.entry? here = some .dir) (hn : Path.IsDown n)
      (he : d.entry? (here ++ [n]) = some (.link target)) (hzero : target.contains 0 = false)
      (h : Leads d k (origin here target) (Path.split target ++ ns) there) :
      Leads d (k + 1) here (n :: ns) there

inductive IsReal (d : Disk) : List Bytes → Prop where
  | root : IsReal d []
  | entry {here : List Bytes} {n : Bytes} {e : DiskEntry} (h : IsReal d here)
      (hdir : d.entry? here = some .dir) (hname : Path.IsName n) (hn : Path.IsDown n)
      (hzero : 0 ∉ n) (he : d.entry? (here ++ [n]) = some e) (hlink : ¬ e.IsLink) :
      IsReal d (here ++ [n])

variable {d : Disk} {k : Nat} {here there mid ns ms ts names : List Bytes} {n : Bytes}

theorem leads_of_walk {follow : List Bytes → List Bytes → Except DiskError (List Bytes)}
    (hfollow : ∀ here ns, follow here ns = .ok there → ∃ j, k = j + 1 ∧ d.Leads j here ns there)
    (h : d.walk follow here ns = .ok there) : d.Leads k here ns there := by
  induction ns generalizing here with
  | nil =>
      obtain rfl := Except.ok.inj h
      exact .done
  | cons n ns ih =>
      rw [walk] at h
      split at h
      · next hdir =>
          split at h
          · next hidle => exact .idle hdir (by simpa [Path.IsIdle] using hidle) (ih h)
          · next hidle =>
              simp only [Bool.or_eq_true, List.isEmpty_iff, beq_iff_eq, not_or] at hidle
              split at h
              · next hup =>
                  obtain rfl := eq_of_beq hup
                  exact .up hdir (ih h)
              · next hup =>
                  split at h
                  · cases h
                  · next hshort =>
                      have hn : Path.IsDown n := ⟨hidle.1, hidle.2,
                        fun heq => hup (beq_iff_eq.mpr heq), Nat.not_lt.mp hshort⟩
                      split at h
                      · next he =>
                          split at h
                          · cases h
                          · next hzero =>
                              obtain ⟨j, rfl, hj⟩ := hfollow _ _ h
                              exact .follow hdir hn he (eq_false_of_ne_true hzero) hj
                      · next hlink he =>
                          refine .down hdir hn he ?_ (ih h)
                          rintro ⟨target, rfl⟩
                          exact hlink target rfl
                      · cases h
      · cases h
      · cases h

theorem leads_of_descend (h : d.descend k here ns = .ok there) : d.Leads k here ns there := by
  induction k generalizing here ns with
  | zero => exact leads_of_walk (fun _ _ h => by cases h) h
  | succ k ih => exact leads_of_walk (fun _ _ h => ⟨k, rfl, ih h⟩) h

section Steps

variable {follow : List Bytes → List Bytes → Except DiskError (List Bytes)}
  (hdir : d.entry? here = some .dir)

include hdir

theorem walk_idle (hn : Path.IsIdle n) :
    d.walk follow here (n :: ns) = d.walk follow here ns := by
  have hidle : (n.isEmpty || n == [Path.dot]) = true := by simpa [Path.IsIdle] using hn
  simp only [walk, hdir, hidle, if_true]

theorem walk_up : d.walk follow here (Path.up :: ns) = d.walk follow here.dropLast ns := by
  simp only [walk, hdir]
  rfl

theorem walk_down {e : DiskEntry} (hn : Path.IsDown n) (he : d.entry? (here ++ [n]) = some e)
    (hlink : ¬ e.IsLink) : d.walk follow here (n :: ns) = d.walk follow (here ++ [n]) ns := by
  have hidle : ¬ (n.isEmpty || n == [Path.dot]) = true := by simp [hn.nonempty, hn.notDot]
  have hup : ¬ (n == [Path.dot, Path.dot]) = true := by simpa [Path.up] using hn.notUp
  rw [walk, hdir]
  simp only [if_neg hidle, if_neg hup, if_neg (Nat.not_lt.mpr hn.short), he]
  cases e with
  | link target => exact absurd ⟨target, rfl⟩ hlink
  | file | dir => rfl

theorem walk_follow {target : Path} (hn : Path.IsDown n)
    (he : d.entry? (here ++ [n]) = some (.link target)) (hzero : target.contains 0 = false) :
    d.walk follow here (n :: ns) = follow (origin here target) (Path.split target ++ ns) := by
  have hidle : ¬ (n.isEmpty || n == [Path.dot]) = true := by simp [hn.nonempty, hn.notDot]
  have hup : ¬ (n == [Path.dot, Path.dot]) = true := by simpa [Path.up] using hn.notUp
  rw [walk, hdir]
  simp only [if_neg hidle, if_neg hup, if_neg (Nat.not_lt.mpr hn.short), he, hzero,
    Bool.false_eq_true, if_false]

end Steps

theorem descend_eq_walk (d : Disk) (k : Nat) : ∃ follow, d.descend k = d.walk follow := by
  cases k <;> exact ⟨_, rfl⟩

theorem Leads.descend (h : d.Leads k here ns there) : d.descend k here ns = .ok there := by
  induction h with
  | done =>
      obtain ⟨follow, hwalk⟩ := descend_eq_walk d _
      rw [hwalk, walk]
  | idle hdir hn _ ih =>
      obtain ⟨follow, hwalk⟩ := descend_eq_walk d _
      rw [hwalk] at ih ⊢
      rw [walk_idle hdir hn, ih]
  | up hdir _ ih =>
      obtain ⟨follow, hwalk⟩ := descend_eq_walk d _
      rw [hwalk] at ih ⊢
      rw [walk_up hdir, ih]
  | down hdir hn he hlink _ ih =>
      obtain ⟨follow, hwalk⟩ := descend_eq_walk d _
      rw [hwalk] at ih ⊢
      rw [walk_down hdir hn he hlink, ih]
  | follow hdir hn he hzero _ ih => rw [Disk.descend, walk_follow hdir hn he hzero, ih]

theorem descend_eq_ok_iff : d.descend k here ns = .ok there ↔ d.Leads k here ns there :=
  ⟨leads_of_descend, Leads.descend⟩

namespace IsReal

theorem dropLast (h : d.IsReal names) : d.IsReal names.dropLast := by
  cases h with
  | root => exact .root
  | entry h => rwa [List.dropLast_concat]

theorem origin (h : d.IsReal here) (target : Path) : d.IsReal (origin here target) := by
  rw [Disk.origin]
  split
  · exact .root
  · exact h

theorem isName (h : d.IsReal names) : ∀ n ∈ names, Path.IsName n ∧ n ≠ Path.up ∧ 0 ∉ n := by
  induction h with
  | root => exact List.forall_mem_nil _
  | entry _ _ hname hn hzero _ _ ih =>
      intro m hm
      rcases List.mem_append.mp hm with hm | hm
      · exact ih m hm
      · obtain rfl := List.mem_singleton.mp hm
        exact ⟨hname, hn.notUp, hzero⟩

end IsReal

namespace Leads

theorem unique {there' : List Bytes} (h : d.Leads k here ns there)
    (h' : d.Leads k here ns there') : there = there' :=
  Except.ok.inj (h.descend.symm.trans h'.descend)

theorem dir_of_cons (h : d.Leads k here (n :: ns) there) : d.entry? here = some .dir := by
  cases h <;> assumption

theorem split (h : d.Leads k here (ns ++ ms) there) :
    ∃ mid, d.Leads k here ns mid ∧ ∃ j ≤ k, d.Leads j mid ms there := by
  generalize hway : ns ++ ms = way at h
  induction h generalizing ns with
  | done =>
      obtain ⟨rfl, rfl⟩ := List.append_eq_nil_iff.mp hway
      exact ⟨_, .done, _, Nat.le_refl _, .done⟩
  | idle hdir hn h ih =>
      rcases List.append_eq_cons_iff.mp hway with ⟨rfl, rfl⟩ | ⟨ns, rfl, rfl⟩
      · exact ⟨_, .done, _, Nat.le_refl _, .idle hdir hn h⟩
      · obtain ⟨mid, hmid, hrest⟩ := ih rfl
        exact ⟨mid, .idle hdir hn hmid, hrest⟩
  | up hdir h ih =>
      rcases List.append_eq_cons_iff.mp hway with ⟨rfl, rfl⟩ | ⟨ns, rfl, rfl⟩
      · exact ⟨_, .done, _, Nat.le_refl _, .up hdir h⟩
      · obtain ⟨mid, hmid, hrest⟩ := ih rfl
        exact ⟨mid, .up hdir hmid, hrest⟩
  | down hdir hn he hlink h ih =>
      rcases List.append_eq_cons_iff.mp hway with ⟨rfl, rfl⟩ | ⟨ns, rfl, rfl⟩
      · exact ⟨_, .done, _, Nat.le_refl _, .down hdir hn he hlink h⟩
      · obtain ⟨mid, hmid, hrest⟩ := ih rfl
        exact ⟨mid, .down hdir hn he hlink hmid, hrest⟩
  | follow hdir hn he hzero h ih =>
      rcases List.append_eq_cons_iff.mp hway with ⟨rfl, rfl⟩ | ⟨ns, rfl, rfl⟩
      · exact ⟨_, .done, _, Nat.le_refl _, .follow hdir hn he hzero h⟩
      · obtain ⟨mid, hmid, j, hj, hrest⟩ := ih (List.append_assoc ..)
        exact ⟨mid, .follow hdir hn he hzero hmid, j, Nat.le_succ_of_le hj, hrest⟩

theorem idles (hdir : d.entry? here = some .dir) (hns : ∀ n ∈ ns, Path.IsIdle n)
    (h : d.Leads k here ms there) : d.Leads k here (ns ++ ms) there := by
  induction ns with
  | nil => exact h
  | cons n ns ih =>
      rw [List.forall_mem_cons] at hns
      exact .idle hdir hns.1 (ih hns.2)

theorem filter (h : d.Leads k here (ts ++ ns) there) :
    d.Leads k here (ts ++ ns.filter fun n => !n.isEmpty && n != [Path.dot]) there := by
  generalize hway : ts ++ ns = way at h
  induction h generalizing ts ns with
  | done =>
      obtain ⟨rfl, rfl⟩ := List.append_eq_nil_iff.mp hway
      exact .done
  | idle hdir hn _ ih =>
      rcases List.append_eq_cons_iff.mp hway with ⟨rfl, rfl⟩ | ⟨ts, rfl, rfl⟩
      · rw [List.filter_cons_of_neg (by simp [Path.isIdle_iff.mpr hn])]
        exact ih (List.nil_append _)
      · exact .idle hdir hn (ih rfl)
  | up hdir _ ih =>
      rcases List.append_eq_cons_iff.mp hway with ⟨rfl, rfl⟩ | ⟨ts, rfl, rfl⟩
      · exact .up hdir (ih (List.nil_append _))
      · exact .up hdir (ih rfl)
  | down hdir hn he hlink _ ih =>
      rcases List.append_eq_cons_iff.mp hway with ⟨rfl, rfl⟩ | ⟨ts, rfl, rfl⟩
      · rw [List.filter_cons, if_pos hn.counts]
        exact .down hdir hn he hlink (ih (List.nil_append _))
      · exact .down hdir hn he hlink (ih rfl)
  | follow hdir hn he hzero _ ih =>
      rcases List.append_eq_cons_iff.mp hway with ⟨rfl, rfl⟩ | ⟨ts, rfl, rfl⟩
      · rw [List.filter_cons, if_pos hn.counts]
        exact .follow hdir hn he hzero (ih rfl)
      · have hrest := ih (List.append_assoc ..)
        rw [List.append_assoc] at hrest
        exact .follow hdir hn he hzero hrest

theorem of_filter
    (h : d.Leads k here (ts ++ ns.filter fun n => !n.isEmpty && n != [Path.dot]) there)
    (hthere : d.entry? there = some .dir) : d.Leads k here (ts ++ ns) there := by
  generalize hway : (ts ++ ns.filter fun n => !n.isEmpty && n != [Path.dot]) = way at h
  have hidle {l : List Bytes} (hl : ∀ n ∈ l, ¬ (!n.isEmpty && n != [Path.dot]) = true) :
      ∀ n ∈ l, Path.IsIdle n := fun n hn => Path.isIdle_iff.mp (eq_false_of_ne_true (hl n hn))
  induction h generalizing ts ns with
  | done =>
      obtain ⟨rfl, hns⟩ := List.append_eq_nil_iff.mp hway
      rw [List.nil_append, ← List.append_nil ns]
      exact idles hthere (hidle (List.filter_eq_nil_iff.mp hns)) .done
  | idle hdir hn _ ih =>
      rcases List.append_eq_cons_iff.mp hway with ⟨rfl, hns⟩ | ⟨ts, rfl, hns⟩
      · obtain ⟨-, -, -, -, hkept, -⟩ := List.filter_eq_cons_iff.mp hns
        rw [Path.isIdle_iff.mpr hn] at hkept
        cases hkept
      · exact .idle hdir hn (ih hthere hns.symm)
  | up hdir _ ih =>
      rcases List.append_eq_cons_iff.mp hway with ⟨rfl, hns⟩ | ⟨ts, rfl, hns⟩
      · obtain ⟨l, ns, rfl, hl, -, rfl⟩ := List.filter_eq_cons_iff.mp hns
        rw [List.nil_append]
        exact idles hdir (hidle hl) (.up hdir (ih hthere (List.nil_append _)))
      · exact .up hdir (ih hthere hns.symm)
  | down hdir hn he hlink _ ih =>
      rcases List.append_eq_cons_iff.mp hway with ⟨rfl, hns⟩ | ⟨ts, rfl, hns⟩
      · obtain ⟨l, ns, rfl, hl, -, rfl⟩ := List.filter_eq_cons_iff.mp hns
        rw [List.nil_append]
        exact idles hdir (hidle hl) (.down hdir hn he hlink (ih hthere (List.nil_append _)))
      · exact .down hdir hn he hlink (ih hthere hns.symm)
  | follow hdir hn he hzero _ ih =>
      rcases List.append_eq_cons_iff.mp hway with ⟨rfl, hns⟩ | ⟨ts, rfl, hns⟩
      · obtain ⟨l, ns, rfl, hl, -, rfl⟩ := List.filter_eq_cons_iff.mp hns
        rw [List.nil_append]
        exact idles hdir (hidle hl) (.follow hdir hn he hzero (ih hthere rfl))
      · have hrest := ih hthere (by rw [List.append_assoc, hns])
        rw [List.append_assoc] at hrest
        exact .follow hdir hn he hzero hrest

theorem concat {e : DiskEntry} (h : d.Leads k here ns mid) (hdir : d.entry? mid = some .dir)
    (hn : Path.IsDown n) (he : d.entry? (mid ++ [n]) = some e) (hlink : ¬ e.IsLink) :
    d.Leads k here (ns ++ [n]) (mid ++ [n]) := by
  induction h with
  | done => exact .down hdir hn he hlink .done
  | idle hdir' hn' _ ih => exact .idle hdir' hn' (ih hdir he)
  | up hdir' _ ih => exact .up hdir' (ih hdir he)
  | down hdir' hn' he' hlink' _ ih => exact .down hdir' hn' he' hlink' (ih hdir he)
  | follow hdir' hn' he' hzero _ ih =>
      exact .follow hdir' hn' he' hzero (List.append_assoc .. ▸ ih hdir he)

theorem isReal (h : d.Leads k here ns there) (hhere : d.IsReal here)
    (hns : ∀ n ∈ ns, Path.slash ∉ n ∧ 0 ∉ n) : d.IsReal there := by
  induction h with
  | done => exact hhere
  | idle _ _ _ ih => exact ih hhere (List.forall_mem_cons.mp hns).2
  | up _ _ ih => exact ih hhere.dropLast (List.forall_mem_cons.mp hns).2
  | down hdir hn he hlink _ ih =>
      rw [List.forall_mem_cons] at hns
      have hname : Path.IsName _ := ⟨hns.1.1, hn.nonempty, hn.notDot⟩
      exact ih (.entry hhere hdir hname hn hns.1.2 he hlink) hns.2
  | @follow _ _ _ _ _ target hdir hn he hzero _ ih =>
      rw [List.forall_mem_cons] at hns
      refine ih (hhere.origin _) fun n hn => ?_
      rcases List.mem_append.mp hn with hn | hn
      · have hzero : 0 ∉ target := by simpa using hzero
        exact ⟨Path.slash_notMem_of_mem_split hn, fun h => hzero (Path.mem_of_mem_split hn h)⟩
      · exact hns.2 n hn

end Leads

theorem IsReal.leads (h : d.IsReal names) : d.Leads k [] names names := by
  induction h with
  | root => exact .done
  | entry _ hdir _ hn _ he hlink ih => exact ih.concat hdir hn he hlink

variable {p : Path}

theorem resolve_of_isFile (h : d.isFile p = true) : ∃ names, d.resolve p = .ok names := by
  simp only [isFile, reach] at h
  split at h
  · next names hreach =>
      split at hreach
      · cases hreach
      · exact ⟨names, hreach⟩
  · simp at h

theorem resolve_ok (h : d.resolve p = .ok names) :
    p.contains 0 = false ∧ ∃ rest, p = Path.slash :: rest ∧
      d.Leads maxLinks [] (Path.split rest) names := by
  rw [resolve] at h
  split at h
  · cases h
  · next hzero =>
      refine ⟨eq_false_of_ne_true hzero, ?_⟩
      cases p with
      | nil => simp [Path.split] at h
      | cons b bs =>
          by_cases hb : b = Path.slash
          · subst hb
            rw [Path.split_cons_slash] at h
            simp only [List.isEmpty_iff, Path.split_ne_nil, ↓reduceIte] at h
            exact ⟨bs, rfl, leads_of_descend h⟩
          · simp only [Path.split] at h
            split at h
            · next w hw =>
                split at hw
                · simp at hw
                · simp [hb] at hw
            · cases h

theorem resolve_slash (hzero : (Path.slash :: p).contains 0 = false)
    (h : d.Leads maxLinks [] (Path.split p) there) : d.resolve (Path.slash :: p) = .ok there := by
  rw [resolve, hzero, Path.split_cons_slash]
  simp [Path.split_ne_nil, h.descend]

theorem isReal_of_resolve (h : d.resolve p = .ok names) : d.IsReal names := by
  obtain ⟨hzero, rest, rfl, hleads⟩ := resolve_ok h
  have hzero : 0 ∉ Path.slash :: rest := by simpa using hzero
  refine hleads.isReal .root fun n hn => ⟨Path.slash_notMem_of_mem_split hn, fun hmem => hzero ?_⟩
  exact List.mem_cons_of_mem _ (Path.mem_of_mem_split hn hmem)

end Disk

end LanguageService

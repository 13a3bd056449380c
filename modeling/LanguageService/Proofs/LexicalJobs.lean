import LanguageService.Proofs.Growth

namespace LanguageService

def Tree.IsName (t : Tree) (n : NodeId) (x : Name) : Prop :=
  t.kind n = .name none x ∧ x.text ≠ "self"

theorem Tree.IsName.eq {t : Tree} {n : NodeId} {x y : Name} (h : t.IsName n y)
    (hk : t.kind n = .name none x) : y = x :=
  (Kind.name.inj (h.1.symm.trans hk)).2

theorem Tree.isDeclaration_of_meaning {t : Tree} (ht : t.WellFormed) {n d : NodeId} {x : String}
    (h : t.meaning n x = some (.direct d) ∨ t.meaning n x = some (.member d)) :
    (t.kind d).isDeclaration = true := by
  rw [meaning] at h
  split at h
  · next v hv =>
      obtain ⟨vs, -, hfind⟩ := List.exists_of_findSome?_eq_some hv
      have hnamed := List.find?_some hfind
      rw [isNamed] at hnamed
      split at hnamed
      · next y hy =>
          obtain rfl : v = d := by simpa using h
          exact Kind.isDeclaration_of_declares hy
      · cases hnamed
  · split at h
    · next d' hd' =>
        obtain ⟨q, -, hlookup⟩ := Option.bind_eq_some_iff.mp hd'
        have hdecl := Kind.isDeclaration_of_declared
          ((Declarations.sane_ofTree ht).lookup hlookup).1
        obtain rfl : d' = d := by
          split at h <;> simpa using h
        exact hdecl
    · rw [builtinNamed] at h
      split at h <;> simp at h

namespace Check

structure Env.Scoped (e : Env) : Prop where
  tree : e.tree.WellFormed
  blocks : e.tree.DeclsInBlocks
  decls : e.decls = .ofTree e.tree

theorem Env.Scoped.sane {e : Env} (he : e.Scoped) : e.decls.Sane e.tree := by
  rw [he.decls]
  exact Declarations.sane_ofTree he.tree

theorem Env.Scoped.owned {e : Env} (he : e.Scoped) : e.decls.Owned e.tree := by
  rw [he.decls]
  exact Declarations.owned_ofTree he.tree

theorem Env.Scoped.eq {e : Env} (he : e.Scoped) : e = ⟨e.tree, .ofTree e.tree⟩ := by
  rw [← he.decls]

/-- What the type name `x` at `n` stands for, by where it is found. -/
inductive State.TypeNamed (e : Env) (s : State) (n : NodeId) (x : String) : Ty → Prop
  | unknown (h : ¬ s.Clean) : TypeNamed e s n x .error
  | self {a : Ty} (hx : x = "Self") : TypeNamed e s n x a
  | generic {g : NodeId} (hg : (e.tree.kind g).isGeneric = true) :
      TypeNamed e s n x (.parameter g)
  | builtin {b : Builtin} (hb : Builtin.ofWord x = some b) : TypeNamed e s n x (.builtin b)
  | declared {d k : NodeId} {a : Ty} (hd : e.tree.typeHome? n = some d)
      (hlookup : (e.decls.lookup e.tree d x).head? = some k)
      (hk : (e.tree.kind k).isDeclaration = true)
      (hvalue : (s.program e.tree).HasValue k (.metatype a)) : TypeNamed e s n x a

/-- The type of which the name `x` at `n` has the metatype, by what the name means. -/
inductive State.ValueNamed (e : Env) (s : State) (n : NodeId) (x : String) : Ty → Prop
  | unknown (h : ¬ s.Clean) : ValueNamed e s n x .error
  | builtin {b : Builtin} (hm : e.tree.meaning n x = some (.builtin x))
      (hb : Builtin.ofWord x = some b) : ValueNamed e s n x (.builtin b)
  | declared {k : NodeId} {a : Ty}
      (hm : e.tree.meaning n x = some (.direct k) ∨ e.tree.meaning n x = some (.member k))
      (hk : (e.tree.kind k).isDeclaration = true)
      (hvalue : (s.program e.tree).HasValue k (.metatype a)) : ValueNamed e s n x a

def State.Denotes (e : Env) (s : State) (n : NodeId) (a : Ty) : Prop :=
  ∀ x, e.tree.IsName n x → ∀ b, a = .metatype b → s.ValueNamed e n x.text b

structure State.Lexical (e : Env) (s : State) : Prop where
  refers : ∀ n x r, e.tree.IsName n x → s.references.get? n = some r →
    (s.program e.tree).Follows n (e.tree.meaning n x.text) r
  found : ∀ n x, e.tree.IsName n x → s.types.get? n ≠ none →
    e.tree.meaning n x.text ≠ none → s.references.get? n ≠ none
  missed : ∀ n x, e.tree.IsName n x → s.types.get? n ≠ none →
    e.tree.meaning n x.text = none → s.diagnostics.contains (.undefined x) = true
  blames : ∀ d ∈ s.diagnostics.elements, ∀ y, d.code = "E1001" →
    d.message = Complaint.message e.tree (.undefinedName y) →
    ∃ n x, e.tree.Reached n ∧ e.tree.kind n = .name none x ∧ d.site = x.site ∧
      e.tree.meaning n x.text = none
  bound : ∀ v, (e.tree.kind v).isVar = true → ¬ s.Soft v → s.Guards e.tree v
  named : ∀ n x a, e.tree.kind n = .nameType x → s.types.get? n = some a →
    s.TypeNamed e n x.text a
  denotes : ∀ n a, s.types.get? n = some a → s.Denotes e n a

def Complaint.isUndefinedName : Complaint → Bool
  | undefinedName _ => true
  | _ => false

theorem Complaint.message_ne {c : Complaint} (hc : c.isUndefinedName = false)
    (hcode : c.code = "E1001") (t : Tree) (y : String) :
    c.message t ≠ Complaint.message t (.undefinedName y) := by
  have hname : "undefined name ".toList = "undefined ".toList ++ 'n' :: "ame ".toList := by decide
  have htype : "undefined type ".toList = "undefined ".toList ++ 't' :: "ype ".toList := by decide
  have hstart : "undefined ".toList = 'u' :: "ndefined ".toList := by decide
  -- The text of any other begins with a quotation mark, or goes on with another word.
  have hquote {m : String} (hm : m.toList.head? = some '`') :
      m ≠ "undefined name " ++ quoted y := by
    rintro rfl
    rw [String.toList_append, hname, hstart] at hm
    exact absurd (Option.some.inj hm) (by decide)
  cases c with
  | selfValueOutside => exact hquote (m := "`self` is only available inside a type") (by decide)
  | selfTypeOutside => exact hquote (m := "`Self` is only available inside a type") (by decide)
  | undefinedName x => cases hc
  | undefinedType x =>
      intro h
      have hlist : ("undefined type " ++ quoted x).toList =
          ("undefined name " ++ quoted y).toList :=
        congrArg String.toList h
      rw [String.toList_append, String.toList_append, hname, htype, List.append_assoc,
        List.append_assoc] at hlist
      exact absurd (List.cons.inj (List.append_cancel_left hlist)).1 (by decide)
  | notType x =>
      have htick : "`".toList = ['`'] := by decide
      refine hquote (m := quoted x ++ " does not name a type") ?_
      rw [quoted, String.toList_append, String.toList_append, String.toList_append, htick]
      rfl
  | _ => simp [code] at hcode

section Keeping

variable {e : Env} {s s' : State} {n : NodeId} {a : Ty}

theorem State.TypeNamed.keep {x : String} (h : s.TypeNamed e n x a) (hclean : s'.Clean → s.Clean)
    (hvalue : ∀ k b, (e.tree.kind k).isDeclaration = true →
      (s.program e.tree).HasValue k (.metatype b) → (s'.program e.tree).HasValue k (.metatype b)) :
    s'.TypeNamed e n x a := by
  cases h with
  | unknown h => exact .unknown (h ∘ hclean)
  | self hx => exact .self hx
  | generic hg => exact .generic hg
  | builtin hb => exact .builtin hb
  | declared hd hlookup hk h => exact .declared hd hlookup hk (hvalue _ _ hk h)

theorem State.Denotes.keep (h : s.Denotes e n a) (hclean : s'.Clean → s.Clean)
    (hvalue : ∀ k b, (e.tree.kind k).isDeclaration = true →
      (s.program e.tree).HasValue k (.metatype b) → (s'.program e.tree).HasValue k (.metatype b)) :
    s'.Denotes e n a := by
  intro x hx b hb
  cases h x hx b hb with
  | unknown h => exact .unknown (h ∘ hclean)
  | builtin hm hword => exact .builtin hm hword
  | declared hm hk h => exact .declared hm hk (hvalue _ _ hk h)

variable {region : NodeId → Prop}

theorem State.TypeNamed.later {x : String} (h : s.TypeNamed e n x a)
    (hgrows : Grows e.tree region s s') : s'.TypeNamed e n x a :=
  h.keep hgrows.clean fun _ _ hk hvalue => hvalue.stable hgrows.extends hk (by simp)

theorem State.Denotes.later (h : s.Denotes e n a) (hgrows : Grows e.tree region s s') :
    s'.Denotes e n a :=
  h.keep hgrows.clean fun _ _ hk hvalue => hvalue.stable hgrows.extends hk (by simp)

end Keeping

section Preserved

variable {e : Env} {s : State}

theorem program_eq {s' : State} (hreferences : s'.references = s.references)
    (htypes : s'.types = s.types) : s'.program e.tree = s.program e.tree := by
  rw [State.program, State.program, hreferences, htypes]

theorem State.Lexical.of_eq {s' : State} (h : s.Lexical e)
    (hreferences : s'.references = s.references) (htypes : s'.types = s.types)
    (hdiagnostics : s'.diagnostics = s.diagnostics)
    (hchecked : ∀ b, s.IsChecked b → s'.IsChecked b) : s'.Lexical e where
  refers := by
    rw [program_eq hreferences htypes, hreferences]
    exact h.refers
  found := by
    rw [htypes, hreferences]
    exact h.found
  missed := by
    rw [htypes, hdiagnostics]
    exact h.missed
  blames := by
    rw [hdiagnostics]
    exact h.blames
  bound := by
    intro v hv hsoft b hb hbelow
    rw [State.Soft, htypes] at hsoft
    exact hchecked b (h.bound v hv hsoft b hb hbelow)
  named := by
    rw [htypes]
    refine fun n x a hn ha => (h.named n x a hn ha).keep ?_ ?_
    · rw [State.Clean, hdiagnostics]
      exact id
    · rw [program_eq hreferences htypes]
      exact fun _ _ _ => id
  denotes := by
    rw [htypes]
    refine fun n a ha => (h.denotes n a ha).keep ?_ ?_
    · rw [State.Clean, hdiagnostics]
      exact id
    · rw [program_eq hreferences htypes]
      exact fun _ _ _ => id

theorem State.Lexical.complain (h : s.Lexical e) (site : Site) {c : Complaint}
    (hc : c.isUndefinedName = false) :
    State.Lexical e { s with
      diagnostics := s.diagnostics.insert (.error c.code site (c.message e.tree)) } where
  refers := h.refers
  found := h.found
  missed := fun n x hn htyped hm => DiagnosticSet.contains_insert (h.missed n x hn htyped hm)
  blames := by
    intro d hd y hcode hmessage
    rcases DiagnosticSet.mem_insert hd with hd | rfl
    · exact h.blames d hd y hcode hmessage
    · exact absurd hmessage (Complaint.message_ne hc hcode e.tree y)
  bound := h.bound
  named := fun n x a hn ha => (h.named n x a hn ha).keep (absurd · (not_clean_insert s rfl))
    fun _ _ _ => id
  denotes := fun n a ha => (h.denotes n a ha).keep (absurd · (not_clean_insert s rfl))
    fun _ _ _ => id

theorem State.Lexical.undefined (h : s.Lexical e) {n : NodeId} {x : Name}
    (hn : e.tree.Reached n) (hk : e.tree.kind n = .name none x)
    (hm : e.tree.meaning n x.text = none) :
    State.Lexical e { s with diagnostics := s.diagnostics.insert (.undefined x) } where
  refers := h.refers
  found := h.found
  missed := fun n x hn htyped hm => DiagnosticSet.contains_insert (h.missed n x hn htyped hm)
  blames := by
    intro d hd y hcode hmessage
    rcases DiagnosticSet.mem_insert hd with hd | rfl
    · exact h.blames d hd y hcode hmessage
    · exact ⟨n, x, hn, hk, rfl, hm⟩
  bound := h.bound
  named := fun n x a hn ha => (h.named n x a hn ha).keep (absurd · (not_clean_insert s rfl))
    fun _ _ _ => id
  denotes := fun n a ha => (h.denotes n a ha).keep (absurd · (not_clean_insert s rfl))
    fun _ _ _ => id

theorem State.Lexical.refer (h : s.Lexical e) {n : NodeId} {r : Reference}
    (hr : ∀ x, e.tree.IsName n x →
      (s.program e.tree).Follows n (e.tree.meaning n x.text) r) :
    State.Lexical e { s with references := s.references.insert n r } where
  refers := by
    intro n' x r' hn' href
    rw [Table.get?_insert] at href
    split at href
    · next heq =>
        subst heq
        cases href
        exact hr x hn'
    · exact h.refers n' x r' hn' href
  found := by
    intro n' x hn' htyped hm
    rw [Table.get?_insert]
    split
    · simp
    · exact h.found n' x hn' htyped hm
  missed := h.missed
  blames := h.blames
  bound := h.bound
  named := fun n' x a hn ha => (h.named n' x a hn ha).keep id fun _ _ _ => id
  denotes := fun n' a ha => (h.denotes n' a ha).keep id fun _ _ _ => id

theorem State.Lexical.setType (he : e.Scoped) (h : s.Lexical e) {n : NodeId} {ty : Ty}
    (hextends : Program.Extends (s.program e.tree)
      (State.program { s with types := s.types.insert n ty } e.tree))
    (hname : ∀ x, e.tree.IsName n x →
      (e.tree.meaning n x.text ≠ none → s.references.get? n ≠ none) ∧
      (e.tree.meaning n x.text = none → s.diagnostics.contains (.undefined x) = true))
    (hbound : (e.tree.kind n).isVar = true → ty ≠ .error → s.Guards e.tree n)
    (hnamed : ∀ x, e.tree.kind n = .nameType x → s.TypeNamed e n x.text ty)
    (hdenotes : s.Denotes e n ty) :
    State.Lexical e { s with types := s.types.insert n ty } where
  refers := fun n' x r hn' href =>
    (h.refers n' x r hn' href).stable hextends fun _ => Tree.isDeclaration_of_meaning he.tree
  found := by
    intro n' x hn' htyped hm
    by_cases heq : n = n'
    · subst heq
      exact (hname x hn').1 hm
    · exact h.found n' x hn' (by simpa [heq] using htyped) hm
  missed := by
    intro n' x hn' htyped hm
    by_cases heq : n = n'
    · subst heq
      exact (hname x hn').2 hm
    · exact h.missed n' x hn' (by simpa [heq] using htyped) hm
  blames := h.blames
  bound := by
    intro v hv hsoft
    by_cases heq : n = v
    · subst heq
      refine hbound hv fun herror => hsoft (.inr ?_)
      simp [herror]
    · exact h.bound v hv fun hsoft' => hsoft (by simpa [State.Soft, heq] using hsoft')
  named := by
    intro n' x a hn' ha
    rw [Table.get?_insert] at ha
    refine State.TypeNamed.keep (s := s) ?_ id
      fun k b hk hvalue => hvalue.stable hextends hk (by simp)
    split at ha
    · next heq =>
        subst heq
        cases ha
        exact hnamed x hn'
    · exact h.named n' x a hn' ha
  denotes := by
    intro n' a ha
    rw [Table.get?_insert] at ha
    refine State.Denotes.keep (s := s) ?_ id
      fun k b hk hvalue => hvalue.stable hextends hk (by simp)
    split at ha
    · next heq =>
        subst heq
        cases ha
        exact hdenotes
    · exact h.denotes n' a ha

end Preserved

structure Passes (e : Env) (region : NodeId → Prop) (s s' : State) : Prop extends
    Grows e.tree region s s' where
  lexical : s'.Lexical e

structure Serves (e : Env) (s s' : State) : Prop extends Passes e nowhere s s' where
  frames : s'.frames = s.frames

section Passing

variable {e : Env} {region region' : NodeId → Prop} {s s₁ s' : State}

theorem Passes.refl (h : s.Lexical e) : Passes e region s s := ⟨.refl s, h⟩

theorem Passes.trans (h : Passes e region s s₁) (h' : Passes e region s₁ s') :
    Passes e region s s' :=
  ⟨h.toGrows.trans h'.toGrows, h'.lexical⟩

theorem Passes.widen (h : Passes e region s s') (hsub : ∀ x, region x → region' x) :
    Passes e region' s s' :=
  ⟨h.toGrows.widen hsub, h.lexical⟩

theorem Passes.cons {α : Type} {place : α → NodeId → Prop} {a : α} {as : List α}
    (h : Passes e (place a) s s₁) (h' : Passes e (fun x => ∃ b ∈ as, place b x) s₁ s') :
    Passes e (fun x => ∃ b ∈ a :: as, place b x) s s' := by
  refine .trans (h.widen fun x hx => ⟨a, List.mem_cons_self, hx⟩) (h'.widen ?_)
  rintro x ⟨b, hb, hx⟩
  exact ⟨b, List.mem_cons_of_mem a hb, hx⟩

theorem Serves.refl (h : s.Lexical e) : Serves e s s := ⟨.refl h, rfl⟩

theorem Serves.trans (h : Serves e s s₁) (h' : Serves e s₁ s') : Serves e s s' :=
  ⟨h.toPasses.trans h'.toPasses, h'.frames.trans h.frames⟩

theorem Serves.anywhere (h : Serves e s s') : Passes e region s s' :=
  h.toPasses.widen fun _ hx => hx.elim

theorem complain_serves (h : s.Lexical e) (site : Site) {c : Complaint}
    (hc : c.isUndefinedName = false) :
    Succeeds (complain e site c) s fun _ s' => Serves e s s' ∧ ¬ s'.Clean := by
  have hunclean : ¬ State.Clean { s with
      diagnostics := s.diagnostics.insert (.error c.code site (c.message e.tree)) } :=
    not_clean_insert s rfl
  refine .modify ⟨⟨⟨.of_eq ?_ rfl rfl rfl rfl, h.complain site hc⟩, rfl⟩, hunclean⟩
  exact fun hclean => absurd hclean hunclean

theorem serves_complain (h : s.Lexical e) (site : Site) {c : Complaint}
    (hc : c.isUndefinedName = false) :
    Succeeds (complain e site c) s fun _ s' => Serves e s s' :=
  (complain_serves h site hc).mono fun _ _ h => h.1

theorem serves_expect (h : s.Lexical e) (expected found : Ty) (n : NodeId) :
    Succeeds (expect e expected found n) s fun _ s' => Serves e s s' := by
  rw [expect]
  split
  · exact .pure (.refl h)
  · exact serves_complain h _ rfl

theorem serves_refer (h : s.Lexical e) {n : NodeId} {r : Reference}
    (hr : ∀ x, e.tree.IsName n x → (s.program e.tree).Follows n (e.tree.meaning n x.text) r) :
    Succeeds (refer n r) s fun _ s' => Serves e s s' ∧ s'.references.get? n = some r :=
  .modify ⟨⟨⟨.refer n r, h.refer hr⟩, rfl⟩, by simp⟩

theorem serves_refer_other (h : s.Lexical e) {n : NodeId} (r : Reference)
    (hn : ∀ x, e.tree.kind n ≠ .name none x) :
    Succeeds (refer n r) s fun _ s' => Serves e s s' :=
  (serves_refer h fun x hx => absurd hx.1 (hn x)).mono fun _ _ h => h.1

theorem serves_setType (he : e.Scoped) (h : s.Lexical e) {n : NodeId} (ty : Ty)
    (hn : (e.tree.kind n).isDeclaration = false)
    (hname : ∀ x, e.tree.IsName n x →
      (e.tree.meaning n x.text ≠ none → s.references.get? n ≠ none) ∧
      (e.tree.meaning n x.text = none → s.diagnostics.contains (.undefined x) = true))
    (hnamed : ∀ x, e.tree.kind n = .nameType x → s.TypeNamed e n x.text ty)
    (hdenotes : s.Denotes e n ty) :
    Succeeds (setType n ty) s fun _ s' => Serves e s s' ∧ s'.types.get? n = some ty ∧
      s'.references = s.references := by
  have hvar : (e.tree.kind n).isVar = false := by
    cases hv : (e.tree.kind n).isVar with
    | false => rfl
    | true => exact absurd (Kind.isDeclaration_of_isVar hv) (by simp [hn])
  have hgrows : Grows e.tree nowhere s { s with types := s.types.insert n ty } :=
    .setType (by simp [hn]) (by simp [hn]) (by simp [hvar])
  exact .modify ⟨⟨⟨hgrows, h.setType he hgrows.extends hname (by simp [hvar]) hnamed hdenotes⟩,
    rfl⟩, by simp, rfl⟩

theorem serves_setType_other (he : e.Scoped) (h : s.Lexical e) {n : NodeId} (ty : Ty)
    (hn : (e.tree.kind n).isDeclaration = false) (hexpr : (e.tree.kind n).isExpr = false)
    (hnamed : ∀ x, e.tree.kind n = .nameType x → s.TypeNamed e n x.text ty) :
    Succeeds (setType n ty) s fun _ s' => Serves e s s' := by
  have hname (x : Name) : ¬ e.tree.IsName n x := by
    intro hx
    simp [hx.1, Kind.isExpr] at hexpr
  exact (serves_setType he h ty hn (fun x hx => absurd hx (hname x)) hnamed
    fun x hx => absurd hx (hname x)).mono fun _ _ h => h.1

end Passing

def State.room (t : Tree) (s : State) : Nat :=
  ((Finset.range t.size).filter fun d => s.inProgress.contains d = false).card +
    ((Finset.range t.size).filter fun b => s.checkedBindings.contains b = false).card

namespace Job

def rank (t : Tree) : Job → Nat
  | decl d => 2 * t.size + 3 + min d t.size
  | stmt n _ => t.size + 2 + min n t.size
  | subject d => t.size + 2 + (t.size - d)
  | typeExpr n _ => 1 + min n t.size
  | pattern n _ _ => 1 + min n t.size
  | expr n _ => 1 + min n t.size
  | _ => 0

attribute [local simp] rank

def weight (t : Tree) (s : State) (j : Job) : Nat := s.room t * (3 * t.size + 4) + j.rank t

theorem rank_subject_lt {t : Tree} {d q : Nat} (hd : d < t.size) (h : d < q) :
    (subject q).rank t < (subject d).rank t := by
  simp only [rank]
  omega

theorem rank_typeExpr_lt {t : Tree} {c n : Nat} {ctx ctx' : Context} (h : c < n)
    (hn : n < t.size) : (typeExpr c ctx).rank t < (typeExpr n ctx').rank t := by
  simp only [rank]
  omega

theorem rank_expr_lt {t : Tree} {c n : Nat} {ctx ctx' : Context} (h : c < n)
    (hn : n < t.size) : (expr c ctx).rank t < (expr n ctx').rank t := by
  simp only [rank]
  omega

theorem rank_pattern_lt {t : Tree} {c n : Nat} {ty ty' : Ty} {inBody inBody' : Bool} (h : c < n)
    (hn : n < t.size) : (pattern c ty inBody).rank t < (pattern n ty' inBody').rank t := by
  simp only [rank]
  omega

theorem rank_stmt_lt {t : Tree} {c n : Nat} {ctx ctx' : Context} (h : c < n)
    (hn : n < t.size) : (stmt c ctx).rank t < (stmt n ctx').rank t := by
  simp only [rank]
  omega

theorem rank_decl_lt {t : Tree} {c n : Nat} (h : c < n) (hn : n < t.size) :
    (decl c).rank t < (decl n).rank t := by
  simp only [rank]
  omega

theorem rank_lt (t : Tree) (j : Job) : j.rank t < 3 * t.size + 4 := by
  cases j <;> simp only [rank] <;> omega

end Job

section Weights

variable {t : Tree} {s s' : State}

theorem State.room_le (hprogress : ∀ d, s'.inProgress.get? d = s.inProgress.get? d)
    (hchecked : ∀ b, s.IsChecked b → s'.IsChecked b) : s'.room t ≤ s.room t := by
  refine Nat.add_le_add (Finset.card_le_card fun d hd => ?_) (Finset.card_le_card fun b hb => ?_)
  · simpa [Table.contains, hprogress] using hd
  · rw [Finset.mem_filter] at hb ⊢
    refine ⟨hb.1, ?_⟩
    by_contra h
    have := hchecked b (by simpa [State.IsChecked] using h)
    simp [State.IsChecked, hb.2] at this

theorem Grows.weight_le {region : NodeId → Prop} (h : Grows t region s s') (j : Job) :
    j.weight t s' ≤ j.weight t s :=
  Nat.add_le_add_right (Nat.mul_le_mul_right _ (State.room_le h.inProgress h.checked)) _

theorem Grows.weight_lt {region : NodeId → Prop} (h : Grows t region s s') {j : Job} {w : Nat}
    (hw : j.weight t s < w) : j.weight t s' < w :=
  Nat.lt_of_le_of_lt (h.weight_le j) hw

theorem Job.weight_lt_of_room (h : s'.room t < s.room t) (j j' : Job) :
    j'.weight t s' < j.weight t s := by
  have hstep : (s'.room t + 1) * (3 * t.size + 4) ≤ s.room t * (3 * t.size + 4) :=
    Nat.mul_le_mul_right _ h
  have hrank := j'.rank_lt t
  rw [Nat.add_mul] at hstep
  rw [weight, weight]
  omega

theorem Job.weight_lt_of_rank {j j' : Job} (h : j'.rank t < j.rank t) :
    j'.weight t s < j.weight t s :=
  Nat.add_lt_add_left h _

theorem State.room_start {d : NodeId} (hd : d < t.size) (hidle : s.inProgress.get? d = none) :
    State.room t { s with inProgress := s.inProgress.insert d () } < s.room t := by
  refine Nat.add_lt_add_right (Finset.card_lt_card ?_) _
  refine Finset.ssubset_iff_of_subset (fun i hi => ?_) |>.mpr ⟨d, ?_, ?_⟩
  · rw [Finset.mem_filter] at hi ⊢
    refine ⟨hi.1, ?_⟩
    have hi := hi.2
    by_cases heq : d = i
    · simp [Table.contains, heq] at hi
    · simpa [Table.contains, heq] using hi
  · simp [Table.contains, hidle, hd]
  · simp [Table.contains]

theorem State.room_check {b : NodeId} (hb : b < t.size) (hunchecked : ¬ s.IsChecked b) :
    State.room t { s with checkedBindings := s.checkedBindings.insert b () } < s.room t := by
  refine Nat.add_lt_add_left (Finset.card_lt_card ?_) _
  refine Finset.ssubset_iff_of_subset (fun i hi => ?_) |>.mpr ⟨b, ?_, ?_⟩
  · rw [Finset.mem_filter] at hi ⊢
    refine ⟨hi.1, ?_⟩
    have hi := hi.2
    by_cases heq : b = i
    · simp [Table.contains, heq] at hi
    · simpa [Table.contains, heq] using hi
  · simpa [hb, State.IsChecked] using hunchecked
  · simp [Table.contains]

end Weights

def Job.Reach (t : Tree) : Job → NodeId → Prop
  | decl d => t.Below d
  | binding b _ true => t.Below b
  | pattern p _ _ => t.Below p
  | stmt n _ => t.Below n
  | _ => nowhere

def State.Awaits (s : State) (t : Tree) (p : NodeId) : Prop :=
  ∀ v, t.Below p v → (t.kind v).isVar = true → s.Soft v ∧ s.Guards t v

def Context.Generic (ctx : Context) (t : Tree) : Prop :=
  ∀ g ∈ ctx.generics, (t.kind g).isGeneric = true

def Job.Stands (e : Env) (s : State) : Job → Prop
  | decl d => e.tree.IsMember d ∧ e.tree.Reached d ∧ s.frames = [] ∧
      (∀ b, s.IsChecked b → s.Covers e.tree b) ∧ s.Untouched e.tree d
  | signature d => (e.tree.kind d).isDeclaration = true
  | typeAlias d => ∃ introducer x aliased, e.tree.kind d = .typeAlias introducer x aliased
  | subject _ => True
  | typeExpr n ctx => (e.tree.kind n).isType = true ∧ e.tree.typeHome? n = some ctx.scope ∧
      ctx.Generic e.tree
  | binding b ctx inBody => (e.tree.kind b).isBinding = true ∧ e.tree.Reached b ∧
      e.tree.home? b = some ctx.scope ∧ ctx.Generic e.tree ∧ s.frames = e.tree.frames b ∧
      (inBody = true → e.tree.IsLocal b ∧ ¬ s.IsChecked b) ∧
      (inBody = false → ¬ e.tree.IsLocal b)
  | pattern p _ _ => (e.tree.kind p).isPattern = true ∧ s.Awaits e.tree p
  | stmt n ctx => (e.tree.kind n).isStmt = true ∧ e.tree.Reached n ∧
      e.tree.host? n = some ctx.scope ∧ ctx.Generic e.tree ∧ s.frames = e.tree.frames n ∧
      s.Untouched e.tree n
  | expr n ctx => (e.tree.kind n).isExpr = true ∧ e.tree.Reached n ∧
      e.tree.home? n = some ctx.scope ∧ s.frames = e.tree.frames n

def Job.Leaves (e : Env) (s : State) (a : Ty) (s' : State) : Job → Prop
  | decl d => s'.frames = s.frames ∧ s'.Covers e.tree d
  | signature d => s'.frames = s.frames ∧ (a = .error ∨ s'.types.get? d = some a)
  | typeAlias d => s'.frames = s.frames ∧ (a = .error ∧ ¬ s'.Clean ∨ s'.types.get? d = some a)
  | subject _ => s'.frames = s.frames
  | typeExpr _ _ => s'.frames = s.frames
  | binding b _ inBody => s'.IsChecked b ∧ (inBody = false → s'.frames = s.frames) ∧
      (inBody = true → ∀ p i, e.tree.kind b = .binding p i →
        s'.frames = e.tree.bindAll (e.tree.patternVars p) s.frames)
  | pattern p _ inBody => s'.frames =
      if inBody then e.tree.bindAll (e.tree.patternVars p) s.frames else s.frames
  | stmt n _ => s'.frames = e.tree.bindAll (e.tree.boundBy n) s.frames ∧ s'.Covers e.tree n
  | expr n _ => s'.frames = s.frames ∧ s'.Covers e.tree n ∧ s'.Denotes e n a

def Solves (e : Env) (run : Run) (w : Nat) : Prop :=
  ∀ j s, s.Lexical e → j.Stands e s → j.weight e.tree s < w →
    Succeeds (run j) s fun a s' => Passes e (j.Reach e.tree) s s' ∧ j.Leaves e s a s'

section Jobs

variable {e : Env} {run : Run} {w : Nat} {s : State} (hrun : Solves e run w) (hs : s.Lexical e)

include hrun hs

theorem Solves.signature {d : NodeId} (hd : (e.tree.kind d).isDeclaration = true)
    (hw : (Job.signature d).weight e.tree s < w) :
    Succeeds (run (.signature d)) s fun a s' =>
      Serves e s s' ∧ (a = .error ∨ s'.types.get? d = some a) :=
  (hrun (.signature d) s hs hd hw).mono fun _ _ h => ⟨⟨h.1, h.2.1⟩, h.2.2⟩

theorem Solves.typeAlias {d : NodeId}
    (hd : ∃ introducer x aliased, e.tree.kind d = .typeAlias introducer x aliased)
    (hw : (Job.typeAlias d).weight e.tree s < w) :
    Succeeds (run (.typeAlias d)) s fun a s' =>
      Serves e s s' ∧ (a = .error ∧ ¬ s'.Clean ∨ s'.types.get? d = some a) :=
  (hrun (.typeAlias d) s hs hd hw).mono fun _ _ h => ⟨⟨h.1, h.2.1⟩, h.2.2⟩

theorem Solves.subject {d : NodeId} (hw : (Job.subject d).weight e.tree s < w) :
    Succeeds (run (.subject d)) s fun _ s' => Serves e s s' :=
  (hrun (.subject d) s hs trivial hw).mono fun _ _ h => ⟨h.1, h.2⟩

theorem Solves.typeExpr {n : NodeId} {ctx : Context} (hn : Job.Stands e s (.typeExpr n ctx))
    (hw : (Job.typeExpr n ctx).weight e.tree s < w) :
    Succeeds (run (.typeExpr n ctx)) s fun _ s' => Serves e s s' :=
  (hrun (.typeExpr n ctx) s hs hn hw).mono fun _ _ h => ⟨h.1, h.2⟩

theorem Solves.expr {n : NodeId} {ctx : Context} (hn : Job.Stands e s (.expr n ctx))
    (hw : (Job.expr n ctx).weight e.tree s < w) :
    Succeeds (run (.expr n ctx)) s fun a s' =>
      Serves e s s' ∧ s'.Covers e.tree n ∧ s'.Denotes e n a :=
  (hrun (.expr n ctx) s hs hn hw).mono fun _ _ h => ⟨⟨h.1, h.2.1⟩, h.2.2⟩

end Jobs

end Check

end LanguageService

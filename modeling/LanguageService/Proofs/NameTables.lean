import LanguageService.Proofs.Accounting

/-!
The names of each scope can be kept in a table of their own, which is taken out while the members
of the scope are collected and is put back in the end. No table is ever put in the place of one
that was filled meanwhile, so that the same names are found.
-/
namespace LanguageService

namespace Declarations

def tableOf (ds : Declarations) (s : Scope) : List Entry := ds.entries.filter (·.scope = s)

def takeOut (ds : Declarations) (s : Scope) : Declarations :=
  { ds with entries := ds.entries.filter (·.scope ≠ s) }

def putBack (ds : Declarations) (s : Scope) (names : List Entry) : Declarations :=
  { ds with entries := (ds.takeOut s).entries ++ names }

structure Desk where
  names : List Entry
  others : Declarations

def Desk.visit (t : Tree) (k : Desk) (v : Visit) : Desk :=
  let ds := Declarations.visit t { k.others with entries := k.names } v
  ⟨ds.entries, { ds with entries := k.others.entries }⟩

/-- Collects a member into the table at hand, and what it contains into tables that are taken out
in turn. -/
def fillAt (t : Tree) : Nat → NodeId → Scope → Desk → NodeId → Desk
  | 0, _, _, k, _ => k
  | fuel + 1, owner, s, k, d =>
      let k := k.visit t ⟨owner, s, d⟩
      match t.opened? d with
      | some inner =>
          let filled := (t.membersOf d).foldl (fillAt t fuel d inner)
            ⟨k.others.tableOf inner, k.others.takeOut inner⟩
          ⟨k.names, filled.others.putBack inner filled.names⟩
      | none => k

def fill (t : Tree) (owner : NodeId) (s : Scope) (ds : Declarations) (is : List NodeId) :
    Declarations :=
  let filled := is.foldl (fillAt t (t.size + 1) owner s) ⟨ds.tableOf s, ds.takeOut s⟩
  filled.others.putBack s filled.names

def fillModule (t : Tree) (ds : Declarations) (m : NodeId) : Declarations :=
  match t.kind m with
  | .module _ units =>
      let ds := fill t m (.module ds.modules.length) ds (units.flatMap (declsOfUnit t))
      { ds with modules := ds.modules ++ [m] }
  | _ => ds

def fillExtension (t : Tree) (ds : Declarations) (ext subject : NodeId) (ms : List NodeId) :
    Declarations :=
  match subjectOwner t ds ext subject with
  | some o => fill t ext (.type o) { ds with extended := ds.extended.insert ext o } ms
  | none => ds

def fillPending (t : Tree) : Nat → Declarations → Declarations
  | 0, ds => ds
  | fuel + 1, ds =>
      match ds.pending with
      | [] => ds
      | ext :: rest =>
          let ds := { ds with pending := rest }
          match (t.kind ext).subject? with
          | some n => fillPending t fuel (fillExtension t ds ext n (t.kind ext).members)
          | none => fillPending t fuel ds

def inTables (t : Tree) : Declarations :=
  fillPending t (t.size + 1) (t.modules.foldl (fillModule t) empty)

def bare (ds : Declarations) : Declarations := { ds with entries := [] }

structure Same (ds ds' : Declarations) : Prop where
  bare : ds'.bare = ds.bare
  tables : ∀ s, ds'.tableOf s = ds.tableOf s

variable {t : Tree} {ds ds' : Declarations} {k : Desk} {v : Visit} {vs : List Visit}
  {owner d : NodeId} {s s' : Scope} {names : List Entry}

section Tables

theorem bare_takeOut (ds : Declarations) (s : Scope) : (ds.takeOut s).bare = ds.bare := rfl

theorem tableOf_takeOut (ds : Declarations) (s s' : Scope) :
    (ds.takeOut s).tableOf s' = if s' = s then [] else ds.tableOf s' := by
  rw [tableOf, takeOut, List.filter_filter]
  split
  · next h => simp [h]
  · next h =>
      refine List.filter_congr fun e _ => ?_
      by_cases he : e.scope = s' <;> simp [he, h]

theorem tableOf_putBack (hnames : ∀ e ∈ names, e.scope = s) :
    (ds.putBack s names).tableOf s' = if s' = s then names else ds.tableOf s' := by
  have hput : (ds.putBack s names).tableOf s' =
      (ds.takeOut s).tableOf s' ++ names.filter (·.scope = s') := List.filter_append ..
  rw [hput, tableOf_takeOut]
  split
  · next h =>
      rw [List.nil_append, List.filter_eq_self]
      simpa [h] using hnames
  · next h =>
      rw [List.filter_eq_nil_iff.mpr, List.append_nil]
      intro e he
      simpa [hnames e he] using Ne.symm h

theorem named_eq (ds : Declarations) (s : Scope) (x : String) : ds.named s x =
    (ds.tableOf s).filterMap fun e => if e.name = x then some e.decl else none := by
  rw [named, tableOf, List.filterMap_filter]
  refine List.filterMap_congr fun e _ => ?_
  by_cases hs : e.scope = s <;> simp [hs]

theorem Same.refl (ds : Declarations) : Same ds ds := ⟨rfl, fun _ => rfl⟩

theorem Same.named_eq (h : Same ds ds') (s : Scope) (x : String) :
    ds'.named s x = ds.named s x := by
  rw [Declarations.named_eq, Declarations.named_eq, h.tables]

theorem Same.field {α : Type} (h : Same ds ds') (f : Declarations → α)
    (hf : ∀ ds : Declarations, f ds.bare = f ds) : f ds' = f ds := by
  rw [← hf ds', ← hf ds, h.bare]

theorem Same.parents (h : Same ds ds') : ds'.parents = ds.parents :=
  h.field Declarations.parents fun _ => rfl

theorem Same.scopeOf_eq (h : Same ds ds') (d : NodeId) : scopeOf t ds' d = scopeOf t ds d :=
  scopeOf_congr (h.field Declarations.modules fun _ => rfl)
    (congrArg (·.get? d) (h.field Declarations.extended fun _ => rfl))

theorem Same.visible_eq (h : Same ds ds') (q : NodeId) : visible t ds' q = visible t ds q := by
  have hchain (fuel : Nat) (d : NodeId) : ds'.ancestorsAt fuel d = ds.ancestorsAt fuel d := by
    induction fuel generalizing d with
    | zero => rfl
    | succ fuel ih => simp only [ancestorsAt, h.parents, ih]
  have hancestors : ds'.ancestors q = ds.ancestors q := by
    rw [ancestors, ancestors, h.parents, hchain]
  rw [visible, visible, hancestors, h.field Declarations.modules fun _ => rfl,
    List.filterMap_congr fun d _ => h.scopeOf_eq d]

theorem Same.lookup_eq (h : Same ds ds') (q : NodeId) (x : String) :
    lookup t ds' q x = lookup t ds q x := by
  rw [lookup, lookup, h.visible_eq]
  simp only [h.named_eq]

theorem Same.subjectOwner_eq (h : Same ds ds') (ext n : NodeId) :
    subjectOwner t ds' ext n = subjectOwner t ds ext n := by
  rw [subjectOwner, subjectOwner, h.parents]
  simp only [h.lookup_eq]

end Tables

section Filling

theorem entries_setParents (p : NodeId) (ds : Declarations) (is : List NodeId)
    (es : List Entry) :
    setParents p { ds with entries := es } is = { setParents p ds is with entries := es } := by
  induction is generalizing ds with
  | nil => rfl
  | cons i is ih => exact ih (setParent p ds i)

theorem visit_entries (ds : Declarations) (v : Visit) (es : List Entry) :
    visit t { ds with entries := es } v =
      { visit t ds v with entries := es ++ v.names t } := by
  have hset (ds : Declarations) : setParent v.owner { ds with entries := es } v.member =
      { setParent v.owner ds v.member with entries := es } := rfl
  rw [visit, visit, hset, declare_eq, declare_eq, ← entries_setParents]

theorem Desk.visit_eq (k : Desk) (v : Visit) :
    k.visit t v = ⟨k.names ++ v.names t,
      { Declarations.visit t k.others v with entries := k.others.entries }⟩ := by
  rw [Desk.visit, visit_entries]

theorem bare_visit (h : ds'.bare = ds.bare) (v : Visit) :
    (visit t ds' v).bare = (visit t ds v).bare := by
  have hvisit (ds : Declarations) : (visit t ds v).bare = (visit t ds.bare v).bare :=
    (congrArg bare (visit_entries ds v [])).symm
  rw [hvisit ds', hvisit ds, h]

theorem bare_visits (h : ds'.bare = ds.bare) (vs : List Visit) :
    (vs.foldl (visit t) ds').bare = (vs.foldl (visit t) ds).bare := by
  induction vs generalizing ds ds' with
  | nil => exact h
  | cons v vs ih => exact ih (bare_visit h v)

def namesFor (t : Tree) (vs : List Visit) (s : Scope) : List Entry :=
  (vs.flatMap (Visit.names t)).filter (·.scope = s)

structure Fills (t : Tree) (s : Scope) (vs : List Visit) (k k' : Desk) : Prop where
  names : k'.names = k.names ++ namesFor t vs s
  others : ∀ s', k'.others.tableOf s' =
    k.others.tableOf s' ++ if s' = s then [] else namesFor t vs s'
  bare : k'.others.bare = (vs.foldl (visit t) k.others).bare

theorem namesFor_append (vs vs' : List Visit) (s : Scope) :
    namesFor t (vs ++ vs') s = namesFor t vs s ++ namesFor t vs' s := by
  rw [namesFor, List.flatMap_append, List.filter_append, namesFor, namesFor]

theorem namesFor_eq_nil (h : ∀ v ∈ vs, v.scope ≠ s) : namesFor t vs s = [] := by
  refine List.filter_eq_nil_iff.mpr fun e he => ?_
  obtain ⟨v, hv, he⟩ := List.mem_flatMap.mp he
  simpa [(mem_names.mp he).1] using h v hv

theorem namesFor_singleton (v : Visit) (s : Scope) :
    namesFor t [v] s = if v.scope = s then v.names t else [] := by
  split
  · next h =>
      rw [namesFor, List.flatMap_singleton, List.filter_eq_self]
      exact fun e he => by simp [(mem_names.mp he).1, h]
  · next h => exact namesFor_eq_nil (by simpa using h)

theorem Fills.refl (k : Desk) : Fills t s [] k k := by
  refine ⟨by simp [namesFor], fun s' => ?_, rfl⟩
  simp [namesFor]

theorem Fills.trans {k₁ k' : Desk} {vs' : List Visit} (h : Fills t s vs k k₁)
    (h' : Fills t s vs' k₁ k') : Fills t s (vs ++ vs') k k' := by
  refine ⟨?_, fun s' => ?_, ?_⟩
  · rw [h'.names, h.names, namesFor_append, List.append_assoc]
  · rw [h'.others, h.others, namesFor_append]
    split <;> simp
  · rw [h'.bare, List.foldl_append, bare_visits h.bare]

theorem Fills.foldl {f : Desk → NodeId → Desk} {g : NodeId → List Visit} {is : List NodeId}
    (hf : ∀ k, ∀ i ∈ is, Fills t s (g i) k (f k i)) (k : Desk) :
    Fills t s (is.flatMap g) k (is.foldl f k) := by
  induction is generalizing k with
  | nil => exact .refl k
  | cons i is ih =>
      have hrest := ih (fun k j hj => hf k j (List.mem_cons_of_mem i hj)) (f k i)
      exact (hf k i List.mem_cons_self).trans hrest

theorem fills_visit (k : Desk) (v : Visit) : Fills t v.scope [v] k (k.visit t v) := by
  rw [Desk.visit_eq]
  refine ⟨?_, fun s' => ?_, rfl⟩
  · rw [namesFor_singleton, if_pos rfl]
  · have hnone : (if s' = v.scope then [] else namesFor t [v] s') = [] := by
      split
      · rfl
      · next h => rw [namesFor_singleton, if_neg (Ne.symm h)]
    rw [hnone, List.append_nil]
    rfl

theorem Fills.putBack {filled : Desk}
    (h : Fills t s vs ⟨ds.tableOf s, ds.takeOut s⟩ filled) :
    (∀ s', (filled.others.putBack s filled.names).tableOf s' =
      ds.tableOf s' ++ namesFor t vs s') ∧
        (filled.others.putBack s filled.names).bare = (vs.foldl (visit t) ds).bare := by
  refine ⟨fun s' => ?_, h.bare.trans (bare_visits (bare_takeOut ds s) vs)⟩
  have hnames : filled.names = ds.tableOf s ++ namesFor t vs s := h.names
  rw [tableOf_putBack]
  · split
    · next heq => rw [hnames, heq]
    · next hne =>
        have hothers := h.others s'
        rwa [tableOf_takeOut, if_neg hne, if_neg hne] at hothers
  · intro e he
    rw [hnames, List.mem_append] at he
    rcases he with he | he
    · simpa using (List.mem_filter.mp he).2
    · simpa using (List.mem_filter.mp he).2

theorem opened?_inj {c : NodeId} (hc : t.opened? c = some s) (hd : t.opened? d = some s) :
    c = d := by
  have hopened {c : NodeId} (hc : t.opened? c = some s) : s = .space c ∨ s = .type (.decl c) := by
    rw [Tree.opened?] at hc
    cases hk : t.kind c <;> simp_all
  rcases hopened hc with rfl | rfl <;> rcases hopened hd with h | h <;> simp_all

theorem scope_of_mem_visitsAt (ht : t.WellFormed) {fuel : Nat}
    (hv : v ∈ visitsAt t fuel owner s d) :
    v.scope = s ∨ ∃ c, t.Below d c ∧ t.opened? c = some v.scope := by
  refine (forall_mem_visitsAt (P := fun v => t.Below d v.member ∧
    (v.scope = s ∨ ∃ c, t.Below d c ∧ t.opened? c = some v.scope)) ?_ ⟨.refl d, .inl rfl⟩ v hv).2
  rintro v ⟨hbelow, -⟩ inner hinner m hm
  exact ⟨hbelow.trans (Tree.below_of_mem_membersOf ht hm), .inr ⟨v.member, hbelow, hinner⟩⟩

theorem fillAt_fills (ht : t.WellFormed) {fuel : Nat} (owner : NodeId)
    (hs : ∀ c, t.Below d c → t.opened? c ≠ some s) (k : Desk) :
    Fills t s (visitsAt t fuel owner s d) k (fillAt t fuel owner s k d) := by
  induction fuel generalizing owner s d k with
  | zero => exact .refl k
  | succ fuel ih =>
      have hvisit := fills_visit (t := t) k ⟨owner, s, d⟩
      rw [visitsAt, fillAt]
      cases hinner : t.opened? d with
      | none => exact hvisit
      | some inner =>
          dsimp only
          refine hvisit.trans
            (show Fills t s ((t.membersOf d).flatMap (visitsAt t fuel d inner)) _ _ from ?_)
          generalize k.visit t ⟨owner, s, d⟩ = k
          have hmembers : Fills t inner ((t.membersOf d).flatMap (visitsAt t fuel d inner))
              ⟨k.others.tableOf inner, k.others.takeOut inner⟩
              ((t.membersOf d).foldl (fillAt t fuel d inner)
                ⟨k.others.tableOf inner, k.others.takeOut inner⟩) := by
            refine .foldl (fun k m hm => ih d (fun c hc hopened => ?_) k) _
            obtain rfl := opened?_inj hopened hinner
            exact absurd (Tree.lt_of_mem_membersOf ht hm) (Nat.not_lt.mpr (hc.le ht))
          have hnone : namesFor t ((t.membersOf d).flatMap (visitsAt t fuel d inner)) s = [] := by
            refine namesFor_eq_nil fun v hv => ?_
            obtain ⟨m, hm, hv⟩ := List.mem_flatMap.mp hv
            rcases scope_of_mem_visitsAt ht hv with heq | ⟨c, hc, hopened⟩
            · exact fun hscope => hs d (.refl d) (by rw [hinner, ← heq, hscope])
            · exact fun hscope => hs c ((Tree.below_of_mem_membersOf ht hm).trans hc)
                (hscope ▸ hopened)
          obtain ⟨htables, hbare⟩ := hmembers.putBack
          refine ⟨by rw [hnone, List.append_nil], fun s' => ?_, hbare⟩
          rw [htables]
          split
          · next heq => rw [heq, hnone]
          · rfl

theorem entries_visits (vs : List Visit) (ds : Declarations) :
    (vs.foldl (visit t) ds).entries = ds.entries ++ vs.flatMap (Visit.names t) := by
  induction vs generalizing ds with
  | nil => simp
  | cons v vs ih =>
      have hvisit : (visit t ds v).entries = ds.entries ++ v.names t :=
        congrArg Declarations.entries (visit_entries ds v ds.entries)
      rw [List.foldl_cons, ih, hvisit, List.flatMap_cons, List.append_assoc]

theorem Same.fill (ht : t.WellFormed) (h : Same ds ds') {is : List NodeId}
    (hs : ∀ i ∈ is, ∀ c, t.Below i c → t.opened? c ≠ some s) :
    Same (collect t owner s ds is) (fill t owner s ds' is) := by
  have hfills : Fills t s (visits t owner s is) ⟨ds'.tableOf s, ds'.takeOut s⟩ _ :=
    .foldl (fun k i hi => fillAt_fills ht owner (hs i hi) k) _
  obtain ⟨htables, hbare⟩ := hfills.putBack
  rw [collect_eq]
  refine ⟨hbare.trans (bare_visits h.bare _), fun s' => ?_⟩
  rw [Declarations.fill, htables, h.tables, tableOf, tableOf, entries_visits, List.filter_append]
  rfl

end Filling

section Lookups

theorem Same.map (h : Same ds ds') {f : Declarations → Declarations}
    (hbare : ∀ ds : Declarations, (f ds).bare = f ds.bare)
    (hentries : ∀ ds : Declarations, (f ds).entries = ds.entries) : Same (f ds) (f ds') where
  bare := by rw [hbare, hbare, h.bare]
  tables := fun s => by rw [tableOf, tableOf, hentries, hentries]; exact h.tables s

theorem Same.fillModule (ht : t.WellFormed) (h : Same ds ds') (m : NodeId) :
    Same (collectModule t ds m) (fillModule t ds' m) := by
  rw [collectModule, Declarations.fillModule, h.field Declarations.modules fun _ => rfl]
  cases t.kind m with
  | module name us =>
      have hfill : Same (collect t m (.module ds.modules.length) ds (us.flatMap (declsOfUnit t)))
          (Declarations.fill t m (.module ds.modules.length) ds' (us.flatMap (declsOfUnit t))) := by
        refine h.fill ht fun i _ c _ hopened => ?_
        rw [Tree.opened?] at hopened
        cases hk : t.kind c <;> simp_all
      exact hfill.map (f := fun ds => { ds with modules := ds.modules ++ [m] }) (fun _ => rfl)
        fun _ => rfl
  | _ => exact h

theorem Same.fillExtension (ht : t.WellFormed) (hready : Ready t ds) (htracked : Tracked t ds)
    (h : Same ds ds') {e n : NodeId} {rest : List NodeId} (hpending : ds.pending = e :: rest)
    (hn : (t.kind e).subject? = some n) :
    Same (collectExtension t { ds with pending := rest } e n (t.kind e).members)
      (fillExtension t { ds' with pending := rest } e n (t.kind e).members) := by
  have hpopped : Same { ds with pending := rest } { ds' with pending := rest } :=
    h.map (f := fun ds => { ds with pending := rest }) (fun _ => rfl) fun _ => rfl
  rw [collectExtension, Declarations.fillExtension, hpopped.subjectOwner_eq]
  cases howner : subjectOwner t { ds with pending := rest } e n with
  | none => exact hpopped
  | some o =>
      have hfiled : Same { ds with pending := rest, extended := ds.extended.insert e o }
          { ds' with pending := rest, extended := ds'.extended.insert e o } :=
        h.map (f := fun ds => { ds with pending := rest, extended := ds.extended.insert e o })
          (fun _ => rfl) fun _ => rfl
      refine hfiled.fill ht fun i hi c hc hopened => ?_
      -- What is extended has been seen, and what stands in an extension that waits has not.
      obtain rfl : o = .decl c := by
        rw [Tree.opened?] at hopened
        cases hk : t.kind c <;> simp_all
      rw [subjectOwner_pop ht hready htracked hpending] at howner
      have hchild := (Kind.members_sublist (Kind.waits_of_subject? hn)).subset hi
      exact htracked.subjectOwner howner
        (hready.filed.unseen e (by simp [hpending]) i hchild c hc)

theorem Same.fillPending (ht : t.WellFormed) (hready : Ready t ds) (htracked : Tracked t ds)
    (h : Same ds ds') (fuel : Nat) :
    Same (collectPending t fuel ds) (fillPending t fuel ds') := by
  induction fuel generalizing ds ds' with
  | zero => exact h
  | succ fuel ih =>
      have hsame : ds'.pending = ds.pending := h.field Declarations.pending fun _ => rfl
      cases hpending : ds.pending with
      | nil =>
          rw [collectPending, Declarations.fillPending, hsame, hpending]
          exact h
      | cons e rest =>
          have hsettles := settles ht hready htracked hpending
          have hrest (ds₁ : Declarations) (h₁ : Same (settle t ds e rest) ds₁) :=
            ih hsettles.ready (htracked.settles hsettles) h₁
          rw [collectPending_cons hpending, Declarations.fillPending, hsame, hpending]
          dsimp only
          cases hn : (t.kind e).subject? with
          | some n =>
              refine hrest _ ?_
              rw [settle, hn]
              exact h.fillExtension ht hready htracked hpending hn
          | none =>
              refine hrest _ ?_
              rw [settle, hn]
              exact h.map (f := fun ds => { ds with pending := rest }) (fun _ => rfl) fun _ => rfl

theorem same_inTables (ht : t.WellFormed) : Same (ofTree t) (inTables t) := by
  have hmodules (ms : List NodeId) (ds ds' : Declarations) (h : Same ds ds') :
      Same (ms.foldl (collectModule t) ds) (ms.foldl (Declarations.fillModule t) ds') := by
    induction ms generalizing ds ds' with
    | nil => exact h
    | cons m ms ih => exact ih _ _ (h.fillModule ht m)
  exact (hmodules t.modules empty empty (.refl empty)).fillPending ht (ready_modules ht)
    (gathers_modules ht).toTracked _

end Lookups

end Declarations

end LanguageService

import LanguageService.Proofs.MoreFuel
import LanguageService.Proofs.Outward

/-!
Checking without remembering. What a declaration is needed for is worked out afresh each time, from
nothing, so that it does not depend on what has been worked out before; this comes to an end just
if nothing needs itself.
-/
namespace LanguageService.Check

def Job.isShared (e : Env) : Job → Bool
  | signature d => !(e.tree.kind d).isVar || (e.decls.bindings.get? d).isSome
  | typeAlias _ => true
  | subject _ => true
  | binding _ _ inBody => !inBody
  | _ => false

def State.blank : State := .initial .empty

/-- What is left of `s'`, in which a job has been done apart: complaints, and of a binding the types
of its variables. -/
def State.absorb (j : Job) (s s' : State) : State :=
  { s with
    diagnostics := s.diagnostics.extend s'.diagnostics.elements
    types := match j with
      | .binding _ _ _ => s'.types
      | _ => s.types }

def afresh (e : Env) : Nat → Run
  | 0, _ => fun _ => none
  | fuel + 1, j => fun s =>
      if j.isShared e then
        (step e (afresh e fuel) j .blank).map fun r => (r.1, s.absorb j r.2)
      else step e (afresh e fuel) j s

def apart (e : Env) (fuel : Nat) (j : Job) : Option (Ty × State) :=
  step e (afresh e fuel) j .blank

def worked (e : Env) (fuel : Nat) (b : NodeId) : Option (Ty × State) :=
  (contextOf e (afresh e fuel) b >>= fun ctx => afresh e fuel (.binding b ctx false)) .blank

def Env.jobOf (e : Env) (d : NodeId) : Job :=
  if (e.tree.kind d).isTypeAlias then .typeAlias d else .signature d

def own (e : Env) (fuel : Nat) (d : NodeId) : Option (Ty × State) :=
  if (e.tree.kind d).isBinding then worked e fuel d else apart e fuel (e.jobOf d)

section Complaints

theorem containsError_insert_eq (ds : DiagnosticSet) (d : Diagnostic) :
    (ds.insert d).containsError = (ds.containsError || d.isError) := by
  cases hd : d.isError with
  | true => rw [containsError_insert ds hd, Bool.or_true]
  | false =>
      rw [DiagnosticSet.insert]
      split
      · rw [Bool.or_false]
      · simp [DiagnosticSet.containsError, hd]

theorem containsError_extend (ds : DiagnosticSet) (l : List Diagnostic) :
    (ds.extend l).containsError = (ds.containsError || l.any (·.isError)) := by
  induction l generalizing ds with
  | nil => simp [DiagnosticSet.extend]
  | cons d l ih =>
      rw [DiagnosticSet.extend, List.foldl_cons, ← DiagnosticSet.extend, ih,
        containsError_insert_eq, List.any_cons, Bool.or_assoc]

theorem clean_blank : State.blank.Clean := rfl

theorem clean_absorb {j : Job} {s s' : State} : (s.absorb j s').Clean ↔ s.Clean ∧ s'.Clean := by
  simp only [State.absorb, State.Clean, containsError_extend, Bool.or_eq_false_iff]
  rfl

end Complaints

variable {e : Env} {fuel fuel' : Nat} {j : Job} {d b : NodeId} {s : State} {r r' : Ty × State}

theorem afresh_shared (hj : j.isShared e = true) : afresh e (fuel + 1) j s =
    (apart e fuel j).map fun r => (r.1, s.absorb j r.2) := by
  simp only [afresh, hj, if_true, apart]

theorem afresh_other (hj : j.isShared e = false) :
    afresh e (fuel + 1) j s = step e (afresh e fuel) j s := by
  simp [afresh, hj]

section Fuel

theorem afresh_refines (hle : fuel ≤ fuel') (j : Job) :
    Refines (afresh e fuel j) (afresh e fuel' j) := by
  induction fuel generalizing fuel' j with
  | zero => exact fun _ _ hr => absurd hr (by simp [afresh])
  | succ fuel ih =>
      obtain ⟨fuel', rfl⟩ := Nat.exists_eq_add_one_of_ne_zero (Nat.ne_zero_of_lt hle)
      have hstep := step_refines (e := e) (fun j => ih (Nat.le_of_succ_le_succ hle) j) j
      intro s r hr
      cases hj : j.isShared e with
      | true =>
          rw [afresh_shared hj] at hr ⊢
          obtain ⟨q, hq, rfl⟩ := Option.map_eq_some_iff.mp hr
          exact Option.map_eq_some_iff.mpr ⟨q, hstep _ q hq, rfl⟩
      | false =>
          rw [afresh_other hj] at hr ⊢
          exact hstep s r hr

theorem apart_mono (hle : fuel ≤ fuel') (h : apart e fuel j = some r) :
    apart e fuel' j = some r :=
  step_refines (fun j => afresh_refines hle j) j _ r h

theorem worked_mono (hle : fuel ≤ fuel') (h : worked e fuel b = some r) :
    worked e fuel' b = some r :=
  Refines.bind (contextOf_refines (fun j => afresh_refines hle j) b)
    (fun _ => afresh_refines hle _) _ r h

theorem own_mono (hle : fuel ≤ fuel') (h : own e fuel d = some r) : own e fuel' d = some r := by
  unfold own at h ⊢
  split
  · next hb => exact worked_mono hle (by rwa [if_pos hb] at h)
  · next hb => exact apart_mono hle (by rwa [if_neg hb] at h)

theorem eq_of_mono {α : Type} {f : Nat → Option α}
    (hf : ∀ {k k' : Nat} {a : α}, k ≤ k' → f k = some a → f k' = some a) {a a' : α}
    (h : f fuel = some a) (h' : f fuel' = some a') : a = a' := by
  rcases Nat.le_total fuel fuel' with hle | hle
  · exact Option.some.inj ((hf hle h).symm.trans h')
  · exact Option.some.inj (h.symm.trans (hf hle h'))

theorem apart_unique (h : apart e fuel j = some r) (h' : apart e fuel' j = some r') :
    r = r' :=
  eq_of_mono (f := (apart e · j)) apart_mono h h'

theorem worked_unique (h : worked e fuel b = some r) (h' : worked e fuel' b = some r') :
    r = r' :=
  eq_of_mono (f := (worked e · b)) worked_mono h h'

theorem own_unique (h : own e fuel d = some r) (h' : own e fuel' d = some r') : r = r' :=
  eq_of_mono (f := (own e · d)) own_mono h h'

theorem exists_least (h : own e fuel d = some r) : ∃ k ≤ fuel, own e k d = some r ∧
    ∀ i < k, own e i d = none := by
  induction fuel with
  | zero => exact ⟨0, Nat.le_refl 0, h, fun i hi => absurd hi (Nat.not_lt_zero i)⟩
  | succ fuel ih =>
      cases hbefore : own e fuel d with
      | none =>
          refine ⟨fuel + 1, Nat.le_refl _, h, fun i hi => ?_⟩
          by_contra hsome
          obtain ⟨q, hq⟩ := Option.ne_none_iff_exists'.mp hsome
          simp [own_mono (Nat.le_of_lt_succ hi) hq] at hbefore
      | some q =>
          obtain ⟨k, hk, hleast⟩ := ih (by rw [hbefore, own_unique hbefore h])
          exact ⟨k, Nat.le_succ_of_le hk, hleast⟩

end Fuel

section Contexts

theorem contextOf_absorbs {R : State → State → Prop}
    (hR : ∀ s s' ext o, R s s' → R (s.absorb (.subject ext) o) (s'.absorb (.subject ext) o))
    (d : NodeId) : Tracks R (contextOf e (afresh e fuel) d) (contextOf e (afresh e fuel) d) := by
  refine contextOf_tracks (fun ext s s' hs a s₁ ha => ?_) d
  cases fuel with
  | zero => simp [afresh] at ha
  | succ fuel =>
      rw [afresh_shared rfl] at ha ⊢
      obtain ⟨q, hq, heq⟩ := Option.map_eq_some_iff.mp ha
      cases heq
      exact ⟨_, Option.map_eq_some_iff.mpr ⟨q, hq, rfl⟩, hR s s' ext q.2 hs⟩

variable {c c' : Context} {s₁ s₁' s' : State}

theorem contextOf_of_blank (h : contextOf e (afresh e fuel) d .blank = some (c, s₁)) (s : State) :
    ∃ s₁', contextOf e (afresh e fuel) d s = some (c, s₁') ∧ (s₁'.Clean ↔ s.Clean ∧ s₁.Clean) := by
  refine contextOf_absorbs (R := fun s₁ s' => s'.Clean ↔ s.Clean ∧ s₁.Clean) ?_ d .blank s ?_ c s₁ h
  · intro s₁ s' ext o hs
    simp only [clean_absorb, hs, and_assoc]
  · simp [clean_blank]

theorem contextOf_blank (h : contextOf e (afresh e fuel) d s = some (c, s₁)) :
    ∃ s₁', contextOf e (afresh e fuel) d .blank = some (c, s₁') ∧
      (s₁.Clean ↔ s.Clean ∧ s₁'.Clean) := by
  obtain ⟨r, hr, -⟩ := contextOf_absorbs (R := fun _ _ => True) (fun _ _ _ _ _ => trivial) d
    s .blank trivial c s₁ h
  obtain ⟨q, hq, hclean⟩ := contextOf_of_blank hr s
  cases h.symm.trans hq
  exact ⟨r, hr, hclean⟩

theorem contextOf_unique (h : contextOf e (afresh e fuel) d .blank = some (c, s₁))
    (h' : contextOf e (afresh e fuel') d .blank = some (c', s₁')) : c = c' ∧ s₁ = s₁' := by
  have heq := eq_of_mono (f := fun k => contextOf e (afresh e k) d .blank)
    (fun hle h => contextOf_refines (fun j => afresh_refines hle j) d _ _ h) h h'
  exact Prod.mk.inj heq

end Contexts

section Declarations

def State.begin (s : State) (d : NodeId) : State :=
  { s with inProgress := s.inProgress.insert d () }

def State.settle (s : State) (d : NodeId) (a : Ty) : State :=
  { s with inProgress := s.inProgress.erase d, types := s.types.insert d a }

variable {run : Run} {a : Ty}

theorem typeOf_bind {β : Type} (n : NodeId) (f : Option Ty → CheckM β) (s : State) :
    (typeOf n >>= f) s = f (s.types.get? n) s := rfl

theorem get_bind {β : Type} (f : State → CheckM β) (s : State) :
    (MonadState.get >>= f) s = f s s := rfl

theorem signature_typed (h : s.types.get? d = some a) : signature e run d s = some (a, s) := by
  rw [signature, typeOf_bind, h]
  rfl

theorem start_idle (hidle : s.inProgress.contains d = false) :
    start d s = some (true, s.begin d) := by
  unfold start
  refine (get_bind _ s).trans ?_
  rw [hidle]
  rfl

theorem signature_begin (h : s.types.get? d = none) (hidle : s.inProgress.contains d = false) :
    signature e run d s =
      (declaredType e run d (s.begin d)).map fun r => (r.1, r.2.settle d r.1) := by
  rw [signature, typeOf_bind, h]
  change (start d s).bind _ = _
  rw [start_idle hidle, Option.map_eq_bind]
  rfl

theorem typeAlias_typed (h : s.types.get? d = some a) : typeAlias e run d s = some (a, s) := by
  rw [typeAlias, typeOf_bind, h]
  rfl

theorem typeAlias_begin {introducer : Site} {x : Name} {aliased : NodeId}
    (hk : e.tree.kind d = .typeAlias introducer x aliased) (h : s.types.get? d = none)
    (hidle : s.inProgress.contains d = false) :
    typeAlias e run d s =
      ((contextOf e run d >>= fun ctx => run (.typeExpr aliased ctx)) (s.begin d)).map
        fun r => (r.1, r.2.settle d r.1) := by
  rw [typeAlias, typeOf_bind, h]
  dsimp only
  rw [hk]
  change (start d s).bind _ = _
  rw [start_idle hidle, Option.map_eq_bind]
  change (contextOf e run d (s.begin d)).bind _ = ((contextOf e run d (s.begin d)).bind _).bind _
  rw [Option.bind_assoc]
  rfl

def subjectType (e : Env) (run : Run) (ext node : NodeId) : CheckM Ty :=
  match e.decls.parents.get? ext with
  | some parent => do
      let ctx ← contextOf e run parent
      run (.typeExpr node ctx)
  | none => pure .error

theorem subject_known (h : s.subjects.get? d = some a) : subject e run d s = some (a, s) := by
  unfold subject
  refine (get_bind _ s).trans ?_
  rw [h]
  rfl

theorem subject_unknown (h : s.subjects.get? d = none) : subject e run d s =
    match (e.tree.kind d).subject? with
    | some node => (subjectType e run d node s).map fun r =>
        (r.1, { r.2 with subjects := r.2.subjects.insert d r.1 })
    | none => some (.error, s) := by
  have hresolve (node : NodeId) : subject.resolve e run d node s =
      (subjectType e run d node s).map fun r =>
        (r.1, { r.2 with subjects := r.2.subjects.insert d r.1 }) := by
    rw [subject.resolve, subjectType, Option.map_eq_bind]
    cases e.decls.parents.get? d with
    | none => rfl
    | some parent =>
        change (contextOf e run parent s).bind _ = ((contextOf e run parent s).bind _).bind _
        rw [Option.bind_assoc]
        rfl
  unfold subject
  refine (get_bind _ s).trans ?_
  rw [h]
  cases hk : e.tree.kind d <;> first | exact hresolve _ | rfl

theorem varType_bound (hb : e.decls.bindings.get? d = some b) :
    varType e run d s = (contextOf e run b s).bind fun p =>
      (run (.binding b p.1 false) { p.2 with frames := [] }).map fun r =>
        ((r.2.types.get? d).getD .error, { r.2 with frames := p.2.frames }) := by
  rw [varType, hb]
  change (contextOf e run b s).bind _ = _
  congr 1
  funext p
  rw [Option.map_eq_bind]
  change ((run (.binding b p.1 false) { p.2 with frames := [] }).bind _).bind _ = _
  rw [Option.bind_assoc]
  rfl

theorem own_binding (hb : (e.tree.kind b).isBinding = true) : own e fuel b = worked e fuel b :=
  if_pos hb

theorem own_signature (hd : e.IsOuter d) :
    own e fuel d = apart e fuel (.signature d) := by
  have halias := Kind.isTypeAlias_of_hasSignature hd.signature
  rw [own, if_neg (by simp [hd.single]), Env.jobOf, if_neg (by simp [halias])]

theorem own_typeAlias (hd : (e.tree.kind d).isTypeAlias = true) :
    own e fuel d = apart e fuel (.typeAlias d) := by
  have hbinding : (e.tree.kind d).isBinding = false := by
    cases hk : e.tree.kind d <;> simp_all [Kind.isTypeAlias, Kind.isBinding]
  rw [own, if_neg (by simp [hbinding]), Env.jobOf, if_pos hd]

theorem worked_zero (b : NodeId) : worked e 0 b = none := by
  change (contextOf e (afresh e 0) b .blank).bind (fun _ => none) = none
  exact Option.bind_fun_none _

theorem worked_succ_iff : worked e (fuel + 1) b = some r ↔
    ∃ c s₁ q, contextOf e (afresh e (fuel + 1)) b .blank = some (c, s₁) ∧
      apart e fuel (.binding b c false) = some q ∧
        r = (q.1, s₁.absorb (.binding b c false) q.2) := by
  have hunfold : worked e (fuel + 1) b = (contextOf e (afresh e (fuel + 1)) b .blank).bind
      fun p => (apart e fuel (.binding b p.1 false)).map
        fun q => (q.1, p.2.absorb (.binding b p.1 false) q.2) := by
    change (contextOf e (afresh e (fuel + 1)) b .blank).bind _ = _
    congr 1
  rw [hunfold, Option.bind_eq_some_iff]
  simp only [Option.map_eq_some_iff, Prod.exists, eq_comm (a := r)]
  constructor
  · rintro ⟨c, s₁, hc, q, o, hq, hr⟩
    exact ⟨c, s₁, q, o, hc, hq, hr⟩
  · rintro ⟨c, s₁, q, o, hc, hq, hr⟩
    exact ⟨c, s₁, hc, q, o, hq, hr⟩

variable {v : NodeId} (hv : (e.tree.kind v).isVar = true)

include hv

theorem declaredType_var : declaredType e run v = varType e run v := by
  rw [declaredType]
  cases hk : e.tree.kind v <;> simp_all [Kind.isVar]

theorem own_var_eq : own e fuel v =
    (varType e (afresh e fuel) v (State.blank.begin v)).map fun r => (r.1, r.2.settle v r.1) := by
  have hown : own e fuel v = signature e (afresh e fuel) v .blank := by
    rw [own, Env.jobOf]
    cases hk : e.tree.kind v <;> simp_all [Kind.isVar, Kind.isBinding, Kind.isTypeAlias, apart,
      step]
  rw [hown, signature_begin (Table.get?_empty _) rfl, declaredType_var hv]

theorem own_var (hb : e.decls.bindings.get? v = some b) (h : own e fuel v = some r) :
    ∃ q, worked e fuel b = some q ∧ r.1 = (q.2.types.get? v).getD .error ∧
      (r.2.Clean ↔ q.2.Clean) := by
  rw [own_var_eq hv, varType_bound hb] at h
  obtain ⟨q, hq, rfl⟩ := Option.map_eq_some_iff.mp h
  obtain ⟨⟨c, s₁⟩, hc, hq⟩ := Option.bind_eq_some_iff.mp hq
  obtain ⟨p, hp, rfl⟩ := Option.map_eq_some_iff.mp hq
  cases fuel with
  | zero => simp [afresh] at hp
  | succ fuel =>
      obtain ⟨s₁', hc', hclean⟩ := contextOf_blank hc
      rw [afresh_shared rfl] at hp
      obtain ⟨o, ho, rfl⟩ := Option.map_eq_some_iff.mp hp
      refine ⟨_, worked_succ_iff.mpr ⟨c, s₁', o, hc', ho, rfl⟩, rfl, ?_⟩
      change (s₁.absorb (.binding b c false) o.2).Clean ↔ _
      rw [clean_absorb, clean_absorb, hclean]
      exact and_congr_left fun _ => and_iff_right clean_blank

theorem own_var_of_worked (hb : ∀ c, e.decls.bindings.get? v = some c → c = b)
    (h : worked e fuel b ≠ none) : own e fuel v ≠ none := by
  rw [own_var_eq hv]
  cases hbound : e.decls.bindings.get? v with
  | none =>
      rw [varType, hbound]
      exact Option.some_ne_none _
  | some c =>
      obtain rfl := hb c hbound
      cases fuel with
      | zero => exact absurd (worked_zero _) h
      | succ fuel =>
          obtain ⟨r, hr⟩ := Option.ne_none_iff_exists'.mp h
          obtain ⟨ctx, s₁, q, hctx, hq, -⟩ := worked_succ_iff.mp hr
          obtain ⟨s₁', hctx', -⟩ := contextOf_of_blank hctx (State.blank.begin v)
          rw [varType_bound hbound, hctx', Option.bind_some, afresh_shared rfl, hq]
          exact Option.some_ne_none _

end Declarations

end LanguageService.Check

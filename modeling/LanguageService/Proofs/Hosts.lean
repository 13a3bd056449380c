import LanguageService.Proofs.Addresses
import LanguageService.Proofs.Serialized

namespace LanguageService.Uri

structure IsPlain (c : Char) : Prop where
  notMark : c ≠ '#' ∧ c ≠ '?'
  notSlash : isSlashOrBackslash c = false
  notEdge : Url.isEdge c = false

def readHost? (k : SchemeKind) (cs : List Char) : Option String :=
  if k.isSpecial then domain? cs else plainHost? cs

structure IsHost (k : SchemeKind) (host : List Char) : Prop where
  char : ∀ c ∈ host, IsPlain c ∧ c ≠ '@'
  read : readHost? k host = some (String.ofList host)
  port : ∀ port : List Char, (∀ c ∈ port.head?, c = ':') →
    cutPort false (host ++ port) = (host, port)

theorem isPlain_of_isHex {c : Char} (h : isHex c = true) : IsPlain c ∧ c ≠ '@' := by
  have hlt : c.toNat < 128 := by
    rw [isHex, hexValue?] at h
    split at h
    · next hc => exact Nat.lt_of_le_of_lt (UInt32.le_iff_toNat_le.mp hc.2) (by decide)
    · split at h
      · next hc => exact Nat.lt_of_le_of_lt (UInt32.le_iff_toNat_le.mp hc.2) (by decide)
      · split at h
        · next hc => exact Nat.lt_of_le_of_lt (UInt32.le_iff_toNat_le.mp hc.2) (by decide)
        · cases h
  obtain ⟨hmark, hslash, hedge, hat⟩ := of_ascii (P := fun c => isHex c = true →
    (c ≠ '#' ∧ c ≠ '?') ∧ isSlashOrBackslash c = false ∧ Url.isEdge c = false ∧ c ≠ '@')
    (by decide +kernel) hlt h
  exact ⟨⟨hmark, hslash, hedge⟩, hat⟩

section Ports

theorem cutPort_colon {port : List Char} (hport : ∀ c ∈ port.head?, c = ':') :
    cutPort false port = ([], port) := by
  cases port with
  | nil => rfl
  | cons c cs =>
      obtain rfl := hport c rfl
      simp [cutPort]

theorem cutPort_append {host port : List Char}
    (hhost : ∀ c ∈ host, c ≠ ':' ∧ c ≠ '[') (hport : ∀ c ∈ port.head?, c = ':') :
    cutPort false (host ++ port) = (host, port) := by
  induction host with
  | nil => exact cutPort_colon hport
  | cons c host ih =>
      obtain ⟨hcolon, hbracket⟩ := hhost c List.mem_cons_self
      have hrest := ih fun x hx => hhost x (List.mem_cons_of_mem c hx)
      simp [cutPort, hcolon, hbracket, hrest]

theorem cutPort_inside {inner port : List Char} (hinner : ∀ c ∈ inner, c ≠ ']')
    (hport : ∀ c ∈ port.head?, c = ':') :
    cutPort true (inner ++ ']' :: port) = (inner ++ [']'], port) := by
  induction inner with
  | nil => simp [cutPort, cutPort_colon hport]
  | cons c inner ih =>
      have hrest := ih fun x hx => hinner x (List.mem_cons_of_mem c hx)
      simp [cutPort, hinner c List.mem_cons_self, hrest]

inductive IsPort (k : SchemeKind) : List Char → Prop where
  | usual : IsPort k []
  | written {n : Nat} (hn : n ≤ 65535) (hk : k ≠ .web n) : IsPort k (':' :: Nat.toDigits 10 n)

theorem mem_decimal {n : Nat} {c : Char} (hc : c ∈ Nat.toDigits 10 n) :
    isDigit c = true ∧ isHex c = true ∧ c ≠ '\\' := by
  obtain ⟨d, hd, rfl⟩ := mem_toDigits (by decide) hc
  have hall : ∀ k : Fin 10, isDigit (Nat.digitChar k) = true ∧ isHex (Nat.digitChar k) = true ∧
      Nat.digitChar k ≠ '\\' := by decide
  exact hall ⟨d, hd⟩

theorem colon_repr (n : Nat) : ":" ++ Nat.repr n = String.ofList (':' :: Nat.toDigits 10 n) := by
  rw [Nat.repr]
  exact String.toList_injective (by simp)

variable {k : SchemeKind} {port rest : List Char} {text : String}

theorem IsPort.char (h : IsPort k port) : ∀ c ∈ port, IsPlain c ∧ c ≠ '@' := by
  cases h with
  | usual => simp
  | written hn hk =>
      intro c hc
      rcases List.mem_cons.mp hc with rfl | hc
      · exact ⟨⟨by decide, by decide, by decide⟩, by decide⟩
      · exact isPlain_of_isHex (mem_decimal hc).2.1

theorem IsPort.head (h : IsPort k port) : ∀ c ∈ port.head?, c = ':' := by
  cases h <;> simp

theorem IsPort.read (h : IsPort k port) : portText? k port = some (String.ofList port, []) := by
  cases h with
  | usual => rfl
  | @written n hn hk =>
      have hcut : cut ['\\'] (Nat.toDigits 10 n) = (Nat.toDigits 10 n, []) :=
        cut_of_forall fun c hc => by simpa using (mem_decimal hc).2.2
      have hne : Nat.toDigits 10 n ≠ [] :=
        List.ne_nil_of_length_pos (length_toDigits_pos 10 n (by decide))
      have hall : (Nat.toDigits 10 n).all isDigit = true :=
        List.all_eq_true.mpr fun c hc => (mem_decimal hc).1
      have hread : readDigits 10 0 (Nat.toDigits 10 n) = some n :=
        readDigits_toDigits (by decide) (by decide) n
      rw [portText?, hcut]
      simp only [List.isEmpty_iff, hne, hall, hread, if_true, if_false, Option.bind_some,
        Nat.not_lt.mpr hn, hk]
      rw [colon_repr]

theorem portText?_spec (h : portText? k port = some (text, rest)) : IsPort k text.toList := by
  cases port with
  | nil =>
      rw [portText?, Option.some.injEq, Prod.mk.injEq] at h
      rw [← h.1]
      exact .usual
  | cons c port =>
      rw [portText?] at h
      simp only at h
      split at h
      · simp only [Option.some.injEq, Prod.mk.injEq] at h
        rw [← h.1]
        exact .usual
      · split at h
        · obtain ⟨n, -, h⟩ := Option.bind_eq_some_iff.mp h
          split at h
          · cases h
          · next hn =>
              split at h
              · simp only [Option.some.injEq, Prod.mk.injEq] at h
                rw [← h.1]
                exact .usual
              · next hk =>
                  simp only [Option.some.injEq, Prod.mk.injEq] at h
                  rw [← h.1]
                  rw [colon_repr, String.toList_ofList]
                  exact .written (Nat.not_lt.mp hn) hk
        · cases h

end Ports

section Hosts

variable {k : SchemeKind} {cs : List Char} {host : String}

theorem address?_spec (h : address? cs = some host) :
    ∃ text gs, ipv6? text = some gs ∧ host = "[" ++ ipv6Text gs ++ "]" := by
  simp only [address?] at h
  split at h
  · simp only [Option.ite_none_right_eq_some, Option.map_eq_some_iff] at h
    obtain ⟨-, gs, hgs, rfl⟩ := h
    exact ⟨_, gs, hgs, rfl⟩
  · cases h

theorem isHost_address (h : address? cs = some host) : IsHost k host.toList := by
  obtain ⟨text, gs, hgs, rfl⟩ := address?_spec h
  obtain ⟨hlength, hlt⟩ := ipv6?_spec hgs
  have htext : ("[" ++ ipv6Text gs ++ "]").toList = '[' :: ((ipv6Text gs).toList ++ [']']) := by
    simp
  have hinner : ∀ c ∈ (ipv6Text gs).toList, IsPlain c ∧ c ≠ '@' ∧ c ≠ ']' := by
    intro c hc
    rcases mem_ipv6Text hc with rfl | hhex
    · exact ⟨⟨by decide, by decide, by decide⟩, by decide, by decide⟩
    · obtain ⟨hplain, hat⟩ := isPlain_of_isHex hhex
      refine ⟨hplain, hat, ?_⟩
      rintro rfl
      exact absurd hhex (by decide)
  have haddress : address? ("[" ++ ipv6Text gs ++ "]").toList =
      some ("[" ++ ipv6Text gs ++ "]") := by
    rw [htext]
    simp [address?, ipv6?_ipv6Text hlength hlt]
  refine ⟨fun c hc => ?_, ?_, fun port hport => ?_⟩
  · rw [htext, List.mem_cons, List.mem_append, List.mem_singleton] at hc
    rcases hc with rfl | hc | rfl
    · exact ⟨⟨by decide, by decide, by decide⟩, by decide⟩
    · exact ⟨(hinner c hc).1, (hinner c hc).2.1⟩
    · exact ⟨⟨by decide, by decide, by decide⟩, by decide⟩
  · have hopen : ("[" ++ ipv6Text gs ++ "]").toList.head? == some '[' := by simp [htext]
    rw [readHost?, domain?, plainHost?, if_pos hopen, if_pos hopen, haddress, ite_self,
      String.ofList_toList]
  · have hcut := cutPort_inside (fun c hc => (hinner c hc).2.2) hport
    simp [htext, cutPort, hcut]

theorem isPlain_of_not_forbidden {c : Char} (hc : isForbiddenInHost c = false)
    (hshown : 0x20 ≤ c.toNat) : IsPlain c ∧ c ≠ '@' ∧ c ≠ ':' ∧ c ≠ '[' := by
  simp only [isForbiddenInHost, List.contains_eq_mem, List.mem_cons, List.not_mem_nil, or_false,
    decide_eq_false_iff_not, not_or] at hc
  obtain ⟨-, -, -, -, hspace, hhash, hslash, hcolon, -, -, hmark, hat, hopen, hback, -⟩ := hc
  refine ⟨⟨⟨hhash, hmark⟩, by simp [isSlashOrBackslash, hslash, hback], ?_⟩, hat, hcolon, hopen⟩
  refine eq_false_of_ne_true fun hedge => hspace ?_
  have hle : c.toNat ≤ 0x20 := by simpa [Url.isEdge] using hedge
  rw [← Char.ofNat_toNat c, show c.toNat = 0x20 by omega]

theorem isHost_plain (h : plainHost? cs = some host) : IsHost .other host.toList := by
  rw [plainHost?] at h
  split at h
  · exact isHost_address h
  · split at h
    · cases h
    · next hforbidden =>
        obtain rfl := Option.some.inj h
        rw [String.toList_ofList]
        have hchar : ∀ c ∈ encode isControl cs, isForbiddenInHost c = false ∧ 0x20 ≤ c.toNat := by
          intro c hc
          have hcontrol := isControl_escaping.of_mem_encode hc
          refine ⟨?_, by simp [isControl] at hcontrol; omega⟩
          rcases mem_encode hc with ⟨hc, -⟩ | hc
          · simpa using fun h => hforbidden (List.any_eq_true.mpr ⟨c, hc, h⟩)
          · rcases isEscape_cases hc with rfl | ⟨n, hn, rfl⟩
            · decide
            · have hall : ∀ n < 16, isForbiddenInHost (hexDigit n) = false := by decide
              exact hall n hn
        have hplain := fun c hc => isPlain_of_not_forbidden (hchar c hc).1 (hchar c hc).2
        refine ⟨fun c hc => ⟨(hplain c hc).1, (hplain c hc).2.1⟩, ?_, fun port hport => ?_⟩
        · have hopen : ((encode isControl cs).head? == some '[') = false :=
            beq_eq_false_iff_ne.mpr fun hhead =>
              (hplain _ (List.mem_of_mem_head? hhead)).2.2.2 rfl
          have hany : (encode isControl cs).any isForbiddenInHost = false := by
            simpa using fun c hc => (hchar c hc).1
          have hagain : encode isControl (encode isControl cs) = encode isControl cs :=
            encode_of_forall fun c hc => isControl_escaping.of_mem_encode hc
          simp [readHost?, SchemeKind.isSpecial, plainHost?, hopen, hany, hagain]
        · exact cutPort_append (fun c hc => (hplain c hc).2.2) hport

theorem mem_ipv4Text {n : Nat} {c : Char} (hc : c ∈ (ipv4Text n).toList) :
    c = '.' ∨ isDigit c = true := by
  have hnumber : ∀ m : Nat, ∀ x ∈ (toString m).toList, isDigit x = true := by
    intro m x hx
    refine (mem_decimal (n := m) ?_).1
    simpa [toString, Nat.repr] using hx
  simp only [ipv4Text, List.map_cons, List.map_nil, String.intercalate_cons_cons,
    String.intercalate_singleton, String.toList_append, List.mem_append] at hc
  have hdot : ∀ x ∈ ".".toList, x = '.' := by simp
  rcases hc with (hc | hc) | (hc | hc) | (hc | hc) | hc
  · exact .inr (hnumber _ c hc)
  · exact .inl (hdot c hc)
  · exact .inr (hnumber _ c hc)
  · exact .inl (hdot c hc)
  · exact .inr (hnumber _ c hc)
  · exact .inl (hdot c hc)
  · exact .inr (hnumber _ c hc)

theorem isPlain_of_ipv4 {c : Char} (hc : c = '.' ∨ isDigit c = true) :
    IsPlain c ∧ c ≠ '@' ∧ c ≠ ':' ∧ c ≠ '[' := by
  rcases hc with rfl | hc
  · exact ⟨⟨by decide, by decide, by decide⟩, by decide, by decide, by decide⟩
  · obtain ⟨hhost, hshown⟩ := of_ascii (P := fun c => isDigit c = true →
      isForbiddenInHost c = false ∧ 0x20 ≤ c.toNat) (by decide +kernel) (toNat_lt_of_isDigit hc) hc
    exact isPlain_of_not_forbidden hhost hshown

theorem domain?_spec (h : domain? cs = some host) (hagain : domain? host.toList = some host)
    (hk : k.isSpecial = true) : IsHost k host.toList := by
  have hread : readHost? k host.toList = some (String.ofList host.toList) := by
    rw [readHost?, if_pos hk, String.ofList_toList, hagain]
  rw [domain?] at h
  split at h
  · exact isHost_address h
  · simp only [Option.bind_eq_bind, Option.bind_eq_some_iff] at h
    obtain ⟨-, -, name, -, h⟩ := h
    have hplain : ∀ c ∈ host.toList, IsPlain c ∧ c ≠ '@' ∧ c ≠ ':' ∧ c ≠ '[' := by
      split at h
      · cases h
      · next hname =>
          split at h
          · obtain ⟨n, -, rfl⟩ := Option.map_eq_some_iff.mp h
            exact fun c hc => isPlain_of_ipv4 (mem_ipv4Text hc)
          · obtain rfl := Option.some.inj h
            intro c hc
            rw [String.toList_ofList] at hc
            have hforbidden : isForbiddenInDomain c = false := by
              refine eq_false_of_ne_true fun hc' => hname ?_
              rw [List.any_eq_true.mpr ⟨c, hc, hc'⟩, Bool.or_true]
            simp only [isForbiddenInDomain, Bool.or_eq_false_iff,
              decide_eq_false_iff_not] at hforbidden
            exact isPlain_of_not_forbidden hforbidden.1.1.1 (by omega)
    exact ⟨fun c hc => ⟨(hplain c hc).1, (hplain c hc).2.1⟩, hread, fun port hport =>
      cutPort_append (fun c hc => (hplain c hc).2.2) hport⟩

theorem domain?_nil : domain? [] = none := by
  decide +kernel

theorem host_ne_nil (hne : cs ≠ []) (h : readHost? k cs = some host)
    (hagain : readHost? k host.toList = some host) : host.toList ≠ [] := by
  intro hnil
  rw [hnil] at hagain
  rw [readHost?] at h hagain
  split at hagain
  · rw [domain?_nil] at hagain
    cases hagain
  · next hk =>
      rw [if_neg hk, plainHost?] at h
      split at h
      · obtain ⟨text, gs, -, rfl⟩ := address?_spec h
        simp at hnil
      · split at h
        · cases h
        · obtain rfl := Option.some.inj h
          rw [String.toList_ofList] at hnil
          exact hne (encode_eq_nil.mp hnil)

theorem isHost_of_readHost? (h : readHost? k cs = some host)
    (hdomain : k.isSpecial = true → domain? host.toList = some host) : IsHost k host.toList := by
  rw [readHost?] at h
  split at h
  · next hk => exact domain?_spec h (hdomain hk) hk
  · next hk =>
      cases k with
      | other => exact isHost_plain h
      | file => exact absurd rfl hk
      | web p => exact absurd rfl hk

end Hosts

section Users

variable {mark : Char} {cs a b : List Char}

theorem cutLast_of_notMem (h : mark ∉ cs) : cutLast mark cs = none := by
  rw [cutLast, if_neg (by simpa using h)]

theorem cutLast_append (hb : mark ∉ b) : cutLast mark (a ++ mark :: b) = some (a, b) := by
  have hmem : (a ++ mark :: b).contains mark = true := by simp
  have hall : ∀ c ∈ b.reverse, (c != mark) = true := by
    intro c hc
    simp only [bne_iff_ne, ne_eq]
    rintro rfl
    exact hb (List.mem_reverse.mp hc)
  have hafter : (a ++ mark :: b).reverse.takeWhile (· != mark) = b.reverse := by
    rw [List.reverse_append, List.reverse_cons, List.append_assoc,
      List.takeWhile_append_of_pos hall]
    simp
  have hlength : (a ++ mark :: b).length - b.reverse.length - 1 = a.length := by
    simp only [List.length_append, List.length_cons, List.length_reverse]
    omega
  rw [cutLast, if_pos hmem]
  simp only
  rw [hafter, hlength, List.take_left, List.reverse_reverse]

/-- Who a host is asked by, up to the at sign: no one, or someone who is read as it is. -/
inductive IsUser : List Char → Prop where
  | none : IsUser []
  | given {user : List Char} (hne : user ≠ []) (hchar : ∀ c ∈ user, IsPlain c)
    (hread : userinfoText user = String.ofList (user ++ ['@'])) : IsUser (user ++ ['@'])

theorem isPlain_of_userinfoSet {c : Char} (hc : userinfoSet c = false) : IsPlain c ∧ c ≠ ':' := by
  simp only [userinfoSet, Bool.or_eq_false_iff, List.contains_eq_mem, List.mem_cons,
    List.not_mem_nil, or_false, decide_eq_false_iff_not, not_or] at hc
  obtain ⟨hpath, hslash, hcolon, -, -, -, -, hback, -⟩ := hc
  have hmark : c ≠ '#' ∧ c ≠ '?' := by
    constructor <;> rintro rfl <;> exact absurd hpath (by decide)
  exact ⟨⟨hmark, by simp [isSlashOrBackslash, hslash, hback], not_isEdge_of_pathSet hpath⟩, hcolon⟩

def userText (user password : List Char) : List Char :=
  user ++ if password.isEmpty then [] else ':' :: password

theorem userinfoText_userText {user password : List Char}
    (huser : ∀ c ∈ user, userinfoSet c = false) (hpassword : ∀ c ∈ password, userinfoSet c = false)
    (hne : userText user password ≠ []) :
    userinfoText (userText user password) = String.ofList (userText user password ++ ['@']) := by
  have hcut : cut [':'] (userText user password) =
      (user, if password.isEmpty then [] else ':' :: password) := by
    refine cut_append (fun c hc => ?_) fun c hc => ?_
    · simpa using (isPlain_of_userinfoSet (huser c hc)).2
    · split at hc
      · cases hc
      · obtain rfl : ':' = c := by simpa using hc
        exact List.mem_singleton_self ':'
  have hdrop : (if password.isEmpty then [] else ':' :: password).drop 1 = password := by
    cases password <;> rfl
  have htext : encode userinfoSet user ++
      (if password.isEmpty then [] else ':' :: encode userinfoSet password) =
        userText user password := by
    rw [encode_of_forall huser, encode_of_forall hpassword, userText]
  rw [userinfoText, hcut]
  simp only [hdrop]
  rw [htext, if_neg (by simpa using hne)]

theorem IsUser.char {user : List Char} (h : IsUser user) : ∀ c ∈ user, IsPlain c := by
  cases h with
  | none => simp
  | given hne hchar hread =>
      intro c hc
      rcases List.mem_append.mp hc with hc | hc
      · exact hchar c hc
      · obtain rfl := List.mem_singleton.mp hc
        exact ⟨by decide, by decide, by decide⟩

theorem isUser_userinfoText (cs : List Char) : IsUser (userinfoText cs).toList := by
  rw [userinfoText]
  generalize hparts : cut [':'] cs = parts
  obtain ⟨user, rest⟩ := parts
  simp only
  have htext : encode userinfoSet user ++
      (if (rest.drop 1).isEmpty then [] else ':' :: encode userinfoSet (rest.drop 1)) =
        userText (encode userinfoSet user) (encode userinfoSet (rest.drop 1)) := by
    simp only [userText, List.isEmpty_iff, encode_eq_nil]
  have hset : ∀ xs, ∀ c ∈ encode userinfoSet xs, userinfoSet c = false := fun xs c hc =>
    userinfoSet_escaping.of_mem_encode hc
  rw [htext]
  split
  · exact .none
  · next hne =>
      rw [String.toList_ofList]
      refine .given (by simpa using hne) (fun c hc => ?_)
        (userinfoText_userText (hset _) (hset _) (by simpa using hne))
      rcases List.mem_append.mp hc with hc | hc
      · exact (isPlain_of_userinfoSet (hset _ c hc)).1
      · split at hc
        · cases hc
        · rcases List.mem_cons.mp hc with rfl | hc
          · exact ⟨by decide, by decide, by decide⟩
          · exact (isPlain_of_userinfoSet (hset _ c hc)).1

end Users

section Authorities

variable {k : SchemeKind} {user host port cs : List Char}

structure IsAuthority (k : SchemeKind) (text : List Char) (host : String) : Prop where
  char : ∀ c ∈ text, IsPlain c
  read : ∀ followed, authority? k text followed = some ⟨String.ofList text, host, []⟩

theorem authority?_eq (k : SchemeKind) (cs : List Char) (followed : Bool) :
    authority? k cs followed =
      let user := (cutLast '@' cs).map Prod.fst
      let hostPort := cutPort false (((cutLast '@' cs).map Prod.snd).getD cs)
      let userText := (user.map userinfoText).getD ""
      if hostPort.1.isEmpty && (k.isSpecial || userText != "" || !hostPort.2.isEmpty ||
          (user == some [] && followed)) then none
      else (readHost? k hostPort.1).bind fun host => (portText? k hostPort.2).bind fun port =>
        some ⟨userText ++ host ++ port.1, host, port.2⟩ := by
  simp only [authority?, readHost?]
  cases cutLast '@' cs <;> cases k.isSpecial <;> rfl

theorem isAuthority_append (hu : IsUser user) (hh : IsHost k host) (hne : host ≠ [])
    (hp : IsPort k port) : IsAuthority k (user ++ host ++ port) (String.ofList host) := by
  refine ⟨fun c hc => ?_, fun followed => ?_⟩
  · rcases List.mem_append.mp hc with hc | hc
    · rcases List.mem_append.mp hc with hc | hc
      · exact hu.char c hc
      · exact (hh.char c hc).1
    · exact (hp.char c hc).1
  · have hat : '@' ∉ host ++ port := by
      intro hmem
      rcases List.mem_append.mp hmem with hmem | hmem
      · exact (hh.char _ hmem).2 rfl
      · exact (hp.char _ hmem).2 rfl
    have hempty : host.isEmpty = false := by simpa using hne
    cases hu with
    | none =>
        rw [List.nil_append, authority?_eq, cutLast_of_notMem hat]
        simp [hh.port port hp.head, hempty, hh.read, hp.read]
    | @given user hne hchar htext =>
        have hlast : cutLast '@' (user ++ ['@'] ++ host ++ port) = some (user, host ++ port) := by
          simpa using cutLast_append (a := user) hat
        rw [authority?_eq, hlast]
        simp [hh.port port hp.head, hempty, hh.read, hp.read, htext, String.append_assoc]

theorem isAuthority_nil (hk : k.isSpecial = false) : IsAuthority k [] "" :=
  ⟨by simp, fun followed => by
    simp [authority?, cutLast, cutPort, hk, plainHost?, portText?, encode]⟩

theorem authority?_spec {followed : Bool} {a : Authority}
    (h : authority? k cs followed = some a) :
    ∃ user hostChars portChars port rest, IsUser user ∧ readHost? k hostChars = some a.host ∧
      portText? k portChars = some (port, rest) ∧ a.text = String.ofList user ++ a.host ++ port ∧
        (hostChars = [] → k.isSpecial = false ∧ user = [] ∧ portChars = []) := by
  rw [authority?_eq] at h
  simp only at h
  have hu : IsUser ((((cutLast '@' cs).map Prod.fst).map userinfoText).getD "").toList := by
    cases cutLast '@' cs with
    | none => exact .none
    | some parts => exact isUser_userinfoText parts.1
  generalize (((cutLast '@' cs).map Prod.fst).map userinfoText).getD "" = user at h hu
  generalize cutPort false (((cutLast '@' cs).map Prod.snd).getD cs) = hostPort at h
  split at h
  · cases h
  · next hsolid =>
      simp only [Option.bind_eq_some_iff, Option.some.injEq] at h
      obtain ⟨host, hread, port, hport, rfl⟩ := h
      refine ⟨user.toList, hostPort.1, hostPort.2, port.1, port.2, hu, hread, hport,
        by rw [String.ofList_toList], fun hnil => ?_⟩
      simp only [hnil, List.isEmpty_nil, Bool.true_and, Bool.not_eq_true, Bool.or_eq_false_iff,
        bne_eq_false_iff_eq, Bool.not_eq_false', List.isEmpty_iff] at hsolid
      exact ⟨hsolid.1.1.1, by rw [hsolid.1.1.2]; rfl, hsolid.1.2⟩

theorem isAuthority_of_authority? {followed : Bool} {a : Authority}
    (h : authority? k cs followed = some a)
    (hdomain : k.isSpecial = true → domain? a.host.toList = some a.host) :
    IsAuthority k a.text.toList a.host := by
  obtain ⟨user, hostChars, portChars, port, rest, hu, hread, hport, htext, hnil⟩ :=
    authority?_spec h
  have hh := isHost_of_readHost? hread hdomain
  by_cases hhost : hostChars = []
  · obtain ⟨hk, rfl, rfl⟩ := hnil hhost
    have hempty : a.host = "" := by
      rw [hhost, readHost?, if_neg (by simp [hk])] at hread
      exact (Option.some.inj hread).symm
    obtain ⟨rfl, rfl⟩ : "" = port ∧ [] = rest := by simpa [portText?] using hport
    rw [htext, hempty]
    exact isAuthority_nil hk
  · have hagain : readHost? k a.host.toList = some a.host := by
      rw [hh.read, String.ofList_toList]
    have happend := isAuthority_append hu hh (host_ne_nil hhost hread hagain) (portText?_spec hport)
    rw [String.ofList_toList] at happend
    rw [htext]
    simpa using happend

end Authorities

end LanguageService.Uri

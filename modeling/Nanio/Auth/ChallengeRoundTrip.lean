/-
Nanio.Auth.ChallengeRoundTrip — a challenge written by `http_auth_response`
and read by `http_auth_parse`.

The text is parameters with a comma and a blank between them, each bare or
in quotes, and the loop of the parser takes such a text parameter by
parameter (`paramsLoop_joined`). What it takes from a challenge is what was
written, but for a `qop` of both words: the writer puts a bar between them
where the parser looks for a comma (`challenge_recovered_iff`).
-/
import Nanio.Auth.AuthOutput
import Nanio.Auth.ParseEnds

namespace Nanio.Auth

open Nanio.Lib Nanio.Tmp

/-! ## §1 Parameters with commas between them -/

/-- `name=value` or `name="value"`. -/
structure Param where
  name : Text
  value : Text
  inQuotes : Bool

def Param.text (p : Param) : Text :=
  p.name ++ equals :: (if p.inQuotes then quoted p.value else p.value)

/-- The text of a parameter is read as the parameter. -/
structure Param.Plain (p : Param) : Prop where
  name : ∀ c ∈ p.name, c ≠ equals ∧ c ≠ comma ∧ c ≠ space
  short : p.name.length < 16
  value : ∀ c ∈ p.value, c ≠ quote ∧ (p.inQuotes = false → c ≠ comma ∧ c ≠ space)

/-- Each with a comma and a blank in front. -/
def behind (ps : List Param) : Text := ps.flatMap fun p => [comma, space] ++ p.text

/-- What a parameter leaves in the structure. -/
def HttpAuth.take (d : HttpAuth) (p : Param) : Except TextFault HttpAuth :=
  match findOption p.name with
  | some opt => .ok (d.store p.value (-1) opt)
  | none => otherParam d p.name (some (Field.cut p.value : Field 32).text)

theorem stract_whole {size : Nat} [NeZero size] (v : Text) :
    (stract v (-1) : Field size) = Field.cut v := by
  simp [stract]

theorem stract_front {size : Nat} [NeZero size] (v rest : Text) :
    (stract (v ++ rest) v.length : Field size) = Field.cut v := by
  have hpos : ¬ ((v.length : Int) < 0) := by omega
  simp [stract, hpos]

/-- Only the text that is copied counts. -/
theorem storeParam_eq_take (o : Outside) (start : Text) (d : HttpAuth) (p : Param) {v : Text}
    {len : Int}
    (h : ∀ (size : Nat) [NeZero size], (stract v len : Field size) = Field.cut p.value) :
    storeParam o start d p.name (some (v, len)) = d.take p := by
  unfold storeParam HttpAuth.take
  cases findOption p.name with
  | none => simp only [h]
  | some opt => cases opt <;> simp only [HttpAuth.store, h, stract_whole]

theorem behind_cons (p : Param) (ps : List Param) :
    behind (p :: ps) = comma :: space :: (p.text ++ behind ps) := rfl

/-- What is copied of a value, and where `eq` is then. -/
structure ReadsValue (p : Param) (ps : List Param) (v : Text) (len : Int) (next : Option Text) :
    Prop where
  copied : ∀ (size : Nat) [NeZero size], (stract v len : Field size) = Field.cut p.value
  next : next = some (behind ps) ∨ (ps = [] ∧ next = none)

/-- The value of a parameter, with more parameters behind it. -/
theorem paramValue_plain {p : Param} (hp : p.Plain) (ps : List Param) :
    ∃ v len next, paramValue ((if p.inQuotes then quoted p.value else p.value) ++ behind ps) =
      (some (v, len), next) ∧ ReadsValue p ps v len next := by
  cases hq : p.inQuotes with
  | true =>
    have hno : quote ∉ p.value := fun h => (hp.value quote h).1 rfl
    have hend := (strchr_eq_some_iff quote (p.value ++ quote :: behind ps) _).mpr
      ⟨p.value, behind ps, rfl, rfl, hno⟩
    refine ⟨_, _, _, ?_, ⟨fun size _ => stract_front p.value (quote :: behind ps), .inl rfl⟩⟩
    simp [paramValue, quoted, hend]
  | false =>
    have hno : ∀ c ∈ p.value, c ∉ [comma, space] := by
      intro c hc
      have hplain := (hp.value c hc).2 hq
      simp [hplain]
    cases ps with
    | nil =>
      have hhead : p.value.head? ≠ some quote := by
        intro h
        exact (hp.value quote (List.mem_of_head? h)).1 rfl
      have hend := (strpbrk_eq_none_iff [comma, space] p.value).mpr hno
      refine ⟨p.value, -1, none, ?_, ⟨fun size _ => stract_whole p.value, .inr ⟨rfl, rfl⟩⟩⟩
      simp [paramValue, behind, hhead, hend]
    | cons q qs =>
      have hnext : behind (q :: qs) = comma :: space :: (q.text ++ behind qs) := rfl
      generalize space :: (q.text ++ behind qs) = rest at hnext
      have hhead : (p.value ++ comma :: rest).head? ≠ some quote := by
        cases hvalue : p.value with
        | nil => simp only [List.nil_append, List.head?_cons]; decide
        | cons c cs =>
          have hc := (hp.value c (by simp [hvalue])).1
          simpa using hc
      have hend := (strpbrk_eq_some_iff [comma, space] (p.value ++ comma :: rest) _).mpr
        ⟨p.value, comma, rest, rfl, rfl, hno, by simp⟩
      have hlen : ((p.value ++ comma :: rest).length : Int) - (comma :: rest).length =
          p.value.length := by
        rw [List.length_append]
        omega
      refine ⟨_, _, some (comma :: rest), ?_,
        ⟨fun size _ => stract_front p.value (comma :: rest), .inl (by rw [hnext])⟩⟩
      rw [hnext]
      simp only [paramValue, Bool.false_eq_true, if_false, if_neg hhead, hend, hlen]

/-- A round takes a parameter, and goes on with the next. -/
theorem parseRound_plain (o : Outside) {d d' : HttpAuth} {p : Param} (hp : p.Plain)
    (ps : List Param) (htake : d.take p = .ok d') :
    ∃ next, parseRound o d (p.text ++ behind ps) = .ok (.goesOn d' (next.map skipSeparators)) ∧
      (next = some (behind ps) ∨ (ps = [] ∧ next = none)) := by
  obtain ⟨v, len, next, hvalue, hreads⟩ := paramValue_plain hp ps
  have hname : equals ∉ p.name := fun h => (hp.name equals h).1 rfl
  have hskip : skipSpaces p.name = p.name := by
    cases hcs : p.name with
    | nil => rfl
    | cons c cs =>
      have hc := (hp.name c (by simp [hcs])).2.2
      simp [skipSpaces, hc]
  have hid : (stract (p.name ++ equals :: ((if p.inQuotes then quoted p.value else p.value) ++
      behind ps)) p.name.length : Field 16).text = p.name := by
    rw [stract_front]
    exact List.take_of_length_le (Nat.le_of_lt_succ hp.short)
  have htext : p.text ++ behind ps =
      p.name ++ equals :: ((if p.inQuotes then quoted p.value else p.value) ++ behind ps) := by
    rw [Param.text, List.append_assoc, List.cons_append]
  have hstore := storeParam_eq_take o (p.text ++ behind ps) d p hreads.copied
  refine ⟨next, ?_, hreads.next⟩
  rw [htext] at hstore ⊢
  generalize (if p.inQuotes then quoted p.value else p.value) ++ behind ps = rest
    at hvalue hstore hid
  have hfind := (strchr_eq_some_iff equals (p.name ++ equals :: rest) _).mpr
    ⟨p.name, rest, rfl, rfl, hname⟩
  have hlen : ((p.name ++ equals :: rest).length : Int) - (equals :: rest).length =
      p.name.length := by
    rw [List.length_append]
    omega
  simp only [parseRound, skipSpaces_param, hskip, hfind, hlen, hid, List.drop_one, List.tail_cons,
    hvalue, hstore, htake]
  rfl

theorem skipSeparators_behind {p : Param} (hp : p.Plain) (ps : List Param) :
    skipSeparators (behind (p :: ps)) = p.text ++ behind ps := by
  have hstop : skipSeparators (p.text ++ behind ps) = p.text ++ behind ps := by
    rw [Param.text, List.append_assoc, List.cons_append]
    cases hcs : p.name with
    | nil => rfl
    | cons c cs =>
      have hc := hp.name c (by simp [hcs])
      simp [skipSeparators, hc]
  rw [behind_cons]
  exact hstop

/-- The loop takes one parameter after the other. -/
theorem paramsLoop_behind (o : Outside) (ps : List Param) (hps : ∀ p ∈ ps, p.Plain)
    {d d' : HttpAuth} (htake : ps.foldlM HttpAuth.take d = .ok d') :
    ∃ fuel, paramsLoop o fuel d (some (skipSeparators (behind ps))) = .ok (0, parseEnd o d') := by
  induction ps generalizing d with
  | nil =>
    obtain rfl := Except.ok.inj htake
    exact ⟨1, rfl⟩
  | cons p ps ih =>
    obtain ⟨hp, hrest⟩ := List.forall_mem_cons.mp hps
    obtain ⟨e, he, htail⟩ := except_bind_eq_ok.mp htake
    obtain ⟨next, hround, hnext⟩ := parseRound_plain o hp ps he
    have hne : p.text ++ behind ps ≠ [] := by simp [Param.text]
    rw [skipSeparators_behind hp]
    rcases hnext with rfl | ⟨rfl, rfl⟩
    · obtain ⟨fuel, hloop⟩ := ih hrest htail
      exact ⟨fuel + 1, (paramsLoop_goesOn hne hround fuel).trans hloop⟩
    · obtain rfl := Except.ok.inj htail
      exact ⟨2, paramsLoop_goesOn hne hround 1⟩

/-! ## §2 A challenge -/

def paramIf (c : Prop) [Decidable c] (p : Param) : List Param := if c then [p] else []

def realmParam (d : HttpAuth) : Param := ⟨realmName, d.realm.text, true⟩

/-- The parameters behind the realm. -/
def challengeParams (d : HttpAuth) : List Param :=
  paramIf (d.domain.text ≠ []) ⟨domainName, d.domain.text, true⟩ ++
    [⟨nonceName, d.nonce.text, false⟩] ++
    paramIf (d.opaque_.text ≠ []) ⟨opaqueName, d.opaque_.text, true⟩ ++
    [⟨staleName, staleText d.stale, false⟩] ++
    paramIf (d.algorithm = .ALG_MD5_SESS) ⟨algorithmName, md5Sess, false⟩ ++
    paramIf (d.qop ≠ AUTH_QOP_NONE) ⟨qopName, qopText d.qop, true⟩

/-- A digest challenge whose texts can be told apart from what is around
them. -/
structure Challenge (d : HttpAuth) : Prop where
  type : d.type = .HTTP_AUTH_DIGEST
  texts : ∀ t ∈ [d.realm.text, d.domain.text, d.nonce.text, d.opaque_.text], 0 ∉ t
  quoted : ∀ t ∈ [d.realm.text, d.domain.text, d.opaque_.text], quote ∉ t
  nonce : ∀ c ∈ d.nonce.text, c ≠ quote ∧ c ≠ comma ∧ c ≠ space
  algorithm : d.algorithm = .ALG_MD5 ∨ d.algorithm = .ALG_MD5_SESS
  qop : d.qop = AUTH_QOP_NONE ∨ d.qop = AUTH_QOP_AUTH ∨ d.qop = AUTH_QOP_AUTH_INT ∨
    d.qop = AUTH_QOP_AUTH ||| AUTH_QOP_AUTH_INT

theorem behind_append (ps qs : List Param) : behind (ps ++ qs) = behind ps ++ behind qs :=
  List.flatMap_append

/-- The writer's field is the parameter with its comma. -/
theorem behind_single (name value : Text) (inQuotes : Bool) :
    behind [⟨name, value, inQuotes⟩] = field name (if inQuotes then quoted value else value) := by
  simp [behind, field, Param.text]

theorem flatten_textIf (c : Prop) [Decidable c] (p : Param) :
    (textIf c (field p.name (if p.inQuotes then quoted p.value else p.value))).flatten =
      behind (paramIf c p) := by
  unfold textIf paramIf
  split
  · rw [List.flatten_singleton, behind_single]
  · rfl

theorem flatten_responseTexts {d : HttpAuth} (hd : d.type = .HTTP_AUTH_DIGEST) :
    (responseTexts d).flatten =
      digestWord ++ space :: ((realmParam d).text ++ behind (challengeParams d)) := by
  have hdomain := flatten_textIf (d.domain.text ≠ []) ⟨domainName, d.domain.text, true⟩
  have hopaqueText := flatten_textIf (d.opaque_.text ≠ []) ⟨opaqueName, d.opaque_.text, true⟩
  have halgorithm := flatten_textIf (d.algorithm = .ALG_MD5_SESS) ⟨algorithmName, md5Sess, false⟩
  have hqop := flatten_textIf (d.qop ≠ AUTH_QOP_NONE) ⟨qopName, qopText d.qop, true⟩
  simp only [if_true, Bool.false_eq_true, if_false] at hdomain hopaqueText halgorithm hqop
  unfold responseTexts challengeParams
  rw [hd]
  simp only [List.flatten_append, behind_append, List.flatten_singleton, hdomain, hopaqueText,
    halgorithm, hqop, behind_single, realmParam, Param.text, if_true, Bool.false_eq_true, if_false]
  simp only [List.append_assoc, List.cons_append]

theorem cut_text {size : Nat} [NeZero size] (f : Field size) : Field.cut f.text = f := by
  have hlt := f.lt
  have hall : f.text.take (size - 1) = f.text := List.take_of_length_le (by omega)
  cases f
  simpa [Field.cut] using hall

/-- A `qop` as the parser reads it. -/
def readQop (qop : UInt32) : UInt32 :=
  if qop = AUTH_QOP_AUTH ||| AUTH_QOP_AUTH_INT then AUTH_QOP_ELSE else qop

theorem qopWords_last {c : Text} (h : (qopWord c).2 = []) (qop : UInt32) :
    qopWords c qop = qop ||| (qopWord c).1 := by
  rw [qopWords]
  split
  · next hmore => rw [h] at hmore; cases hmore
  · rfl

theorem foldlM_paramIf (c : Prop) [Decidable c] (p : Param) {e e' : HttpAuth}
    (htake : c → e.take p = .ok e') (hskip : ¬ c → e' = e) :
    (paramIf c p).foldlM HttpAuth.take e = .ok e' := by
  unfold paramIf
  split
  · next h =>
    rw [List.foldlM_cons, htake h]
    rfl
  · next h => rw [hskip h, List.foldlM_nil]; rfl

theorem empty_field {size : Nat} [NeZero size] {f : Field size} (h : f.text = []) :
    f = default := by
  cases f
  simp only at h
  subst h
  rfl

theorem foldlM_single {p : Param} {e e' : HttpAuth} (htake : e.take p = .ok e') :
    [p].foldlM HttpAuth.take e = .ok e' := by
  rw [List.foldlM_cons, htake]
  rfl

theorem foldlM_both {ps qs : List Param} {e e' e'' : HttpAuth}
    (hps : ps.foldlM HttpAuth.take e = .ok e') (hqs : qs.foldlM HttpAuth.take e' = .ok e'') :
    (ps ++ qs).foldlM HttpAuth.take e = .ok e'' := by
  rw [List.foldlM_append, hps]
  exact hqs

/-- A parameter that names a field. -/
theorem take_field (e : HttpAuth) {p : Param} {opt : Opt} (h : findOption p.name = some opt) :
    e.take p = .ok (e.store p.value (-1) opt) := by
  rw [HttpAuth.take, h]

section

variable {d e : HttpAuth}

theorem take_realm (d e : HttpAuth) : e.take (realmParam d) = .ok { e with realm := d.realm } := by
  rw [take_field e (by decide : findOption realmName = some .realm)]
  simp only [HttpAuth.store, realmParam, stract_whole, cut_text]

theorem take_nonce (d e : HttpAuth) :
    e.take ⟨nonceName, d.nonce.text, false⟩ = .ok { e with nonce := d.nonce } := by
  rw [take_field e (by decide : findOption nonceName = some .nonce)]
  simp only [HttpAuth.store, stract_whole, cut_text]

/-- A domain that is not written is empty, as it is in the structure. -/
theorem take_domain (d : HttpAuth) (he : e.domain = default) :
    (paramIf (d.domain.text ≠ []) ⟨domainName, d.domain.text, true⟩).foldlM HttpAuth.take e =
      .ok { e with domain := d.domain } := by
  apply foldlM_paramIf
  · intro _
    rw [take_field e (by decide : findOption domainName = some .domain)]
    simp only [HttpAuth.store, stract_whole, cut_text]
  · intro h
    rw [empty_field (not_not.mp h), ← he]

theorem take_opaqueParam (d : HttpAuth) (he : e.opaque_ = default) :
    (paramIf (d.opaque_.text ≠ []) ⟨opaqueName, d.opaque_.text, true⟩).foldlM HttpAuth.take e =
      .ok { e with opaque_ := d.opaque_ } := by
  apply foldlM_paramIf
  · intro _
    rw [take_field e (by decide : findOption opaqueName = some .opaque_)]
    simp only [HttpAuth.store, stract_whole, cut_text]
  · intro h
    rw [empty_field (not_not.mp h), ← he]

theorem take_stale (d e : HttpAuth) :
    e.take ⟨staleName, staleText d.stale, false⟩ = .ok { e with stale := d.stale } := by
  cases d.stale <;> rfl

/-- MD5 is not written, and is what the structure starts with. -/
theorem take_algorithm (hd : Challenge d) (he : e.algorithm = .ALG_MD5) :
    (paramIf (d.algorithm = .ALG_MD5_SESS) ⟨algorithmName, md5Sess, false⟩).foldlM
      HttpAuth.take e = .ok { e with algorithm := d.algorithm } := by
  apply foldlM_paramIf
  · intro h
    rw [h]
    rfl
  · intro h
    rw [hd.algorithm.resolve_right h, ← he]

/-- The two words are read one by one where they are written one by one. -/
theorem take_qop (hd : Challenge d) (he : e.qop = AUTH_QOP_NONE) :
    (paramIf (d.qop ≠ AUTH_QOP_NONE) ⟨qopName, qopText d.qop, true⟩).foldlM HttpAuth.take e =
      .ok { e with qop := readQop d.qop } := by
  have htake : ∀ c, c.length < 32 → e.take ⟨qopName, c, true⟩ =
      .ok { e with qop := qopWords c AUTH_QOP_NONE } := by
    intro c hc
    have hall : (Field.cut c : Field 32).text = c := List.take_of_length_le (by omega)
    have hno : findOption qopName = none := by decide
    simp only [HttpAuth.take, hno, hall]
    rfl
  apply foldlM_paramIf
  · intro hqop
    rcases hd.qop with h | h | h | h
    · exact absurd h hqop
    all_goals
      rw [h, htake _ (by decide), qopWords_last (by decide)]
      congr 2
  · intro h
    rw [not_not.mp h, readQop, if_neg (by decide), ← he]

/-- What the parser makes of a challenge, from a structure that it has
emptied. -/
theorem take_challenge (hd : Challenge d) (hdomain : e.domain = default)
    (hopaqueText : e.opaque_ = default) (halgorithm : e.algorithm = .ALG_MD5)
    (hqop : e.qop = AUTH_QOP_NONE) :
    (realmParam d :: challengeParams d).foldlM HttpAuth.take e =
      .ok { e with
        realm := d.realm, domain := d.domain, nonce := d.nonce, opaque_ := d.opaque_
        stale := d.stale, algorithm := d.algorithm, qop := readQop d.qop } := by
  have h₁ := foldlM_both (take_domain d (e := { e with realm := d.realm }) hdomain)
    (foldlM_single (take_nonce d _))
  have h₂ :=
    foldlM_both (foldlM_both h₁ (take_opaqueParam d hopaqueText)) (foldlM_single (take_stale d _))
  have h₃ := foldlM_both (foldlM_both h₂ (take_algorithm hd halgorithm)) (take_qop hd hqop)
  have hall := foldlM_both (foldlM_single (take_realm d e)) h₃
  exact hall

end

/-! ## §3 There and back -/

/-- No character of a text is one of three. -/
theorem ne_three {x y z : UInt8} {t : Text} (h : x ∉ t ∧ y ∉ t ∧ z ∉ t) :
    ∀ c ∈ t, c ≠ x ∧ c ≠ y ∧ c ≠ z := by
  intro c hc
  refine ⟨?_, ?_, ?_⟩
  · rintro rfl
    exact h.1 hc
  · rintro rfl
    exact h.2.1 hc
  · rintro rfl
    exact h.2.2 hc

theorem plain_quoted {name value : Text} (hname : equals ∉ name ∧ comma ∉ name ∧ space ∉ name)
    (hshort : name.length < 16) (hvalue : quote ∉ value) : Param.Plain ⟨name, value, true⟩ where
  name := ne_three hname
  short := hshort
  value c hc := ⟨fun h => hvalue (h ▸ hc), fun h => by cases h⟩

theorem plain_bare {name value : Text} (hname : equals ∉ name ∧ comma ∉ name ∧ space ∉ name)
    (hshort : name.length < 16) (hvalue : ∀ c ∈ value, c ≠ quote ∧ c ≠ comma ∧ c ≠ space) :
    Param.Plain ⟨name, value, false⟩ where
  name := ne_three hname
  short := hshort
  value c hc := ⟨(hvalue c hc).1, fun _ => (hvalue c hc).2⟩

theorem forall_paramIf (c : Prop) [Decidable c] {P : Param → Prop} {p : Param} (hp : P p) :
    ∀ q ∈ paramIf c p, P q := by
  unfold paramIf
  split
  · exact List.forall_mem_singleton.mpr hp
  · exact List.forall_mem_nil _

theorem plain_challenge {d : HttpAuth} (hd : Challenge d) :
    ∀ p ∈ realmParam d :: challengeParams d, p.Plain := by
  obtain ⟨hrealm, hdomain, hopaqueText, -⟩ : quote ∉ d.realm.text ∧ quote ∉ d.domain.text ∧
      quote ∉ d.opaque_.text ∧ True := by simpa using hd.quoted
  have hstale : quote ∉ staleText d.stale ∧ comma ∉ staleText d.stale ∧
      space ∉ staleText d.stale := by
    cases d.stale <;> decide
  have hqop : quote ∉ qopText d.qop := by
    rcases hd.qop with h | h | h | h <;> rw [h] <;> decide
  rw [challengeParams, List.forall_mem_cons]
  simp only [List.forall_mem_append, List.forall_mem_singleton]
  refine ⟨plain_quoted (by decide) (by decide) hrealm, ⟨⟨⟨⟨?_, ?_⟩, ?_⟩, ?_⟩, ?_⟩, ?_⟩
  · exact forall_paramIf _ (plain_quoted (by decide) (by decide) hdomain)
  · exact plain_bare (by decide) (by decide) hd.nonce
  · exact forall_paramIf _ (plain_quoted (by decide) (by decide) hopaqueText)
  · exact plain_bare (by decide) (by decide) (ne_three hstale)
  · exact forall_paramIf _ (plain_bare (by decide) (by decide) (ne_three (by decide)))
  · exact forall_paramIf _ (plain_quoted (by decide) (by decide) hqop)

/-- Two runs of the loop that come to an end come to the same. -/
theorem paramsLoop_unique (o : Outside) {d : HttpAuth} {auth : Option Text} {fuel fuel' : Nat}
    {x y : Int × HttpAuth} (h : paramsLoop o fuel d auth = .ok x)
    (h' : paramsLoop o fuel' d auth = .ok y) : x = y := by
  induction fuel generalizing fuel' d auth with
  | zero => cases h
  | succ fuel ih =>
    cases fuel' with
    | zero => cases h'
    | succ fuel' =>
      match auth with
      | none => exact Except.ok.inj (h.symm.trans h')
      | some [] => exact Except.ok.inj (h.symm.trans h')
      | some (c :: auth) =>
        obtain ⟨round, hround, hrest⟩ := except_bind_eq_ok.mp h
        obtain ⟨round', hround', hrest'⟩ := except_bind_eq_ok.mp h'
        obtain rfl := Except.ok.inj (hround.symm.trans hround')
        cases round with
        | returned r e => exact Except.ok.inj (hrest.symm.trans hrest')
        | goesOn e next => exact ih hrest hrest'

theorem httpAuthParse_unique (o : Outside) {d : HttpAuth} {auth : Text} {fuel fuel' : Nat}
    {x y : Int × HttpAuth} (h : httpAuthParse o fuel d auth = .ok x)
    (h' : httpAuthParse o fuel' d auth = .ok y) : x = y := by
  unfold httpAuthParse at h h'
  cases hscheme : scheme (httpAuthEmpty d) auth with
  | none =>
    rw [hscheme] at h h'
    exact Except.ok.inj (h.symm.trans h')
  | some start =>
    rw [hscheme] at h h'
    exact paramsLoop_unique o h h'

/-- The parser returns 0 and has these fields of the challenge. -/
def Recovers (o : Outside) (d₀ : HttpAuth) (text : Text) (d : HttpAuth) : Prop :=
  ∃ fuel d', httpAuthParse o fuel d₀ text = .ok (0, d') ∧ d'.realm = d.realm ∧
    d'.domain = d.domain ∧ d'.nonce = d.nonce ∧ d'.opaque_ = d.opaque_ ∧ d'.stale = d.stale ∧
    d'.algorithm = d.algorithm ∧ d'.qop = d.qop

theorem scheme_digest (d : HttpAuth) (rest : Text) :
    scheme d (digestWord ++ space :: rest) = some ({ d with type := .HTTP_AUTH_DIGEST }, rest) := by
  have hskip : skipSpaces (digestWord ++ space :: rest) = digestWord ++ space :: rest := rfl
  have hword : Map.strncaseEq (digestWord ++ space :: rest) digest 7 = true := rfl
  rw [scheme, hskip]
  simp only [hword, if_true]
  rfl

/-- Behind the loop only the nonce count and what goes with it changes. -/
theorem parseEnd_keeps (o : Outside) (d : HttpAuth) :
    ∃ nc sessNonce cnonce, parseEnd o d =
      { d with nc := nc, sessNonce := sessNonce, cnonce := cnonce } := by
  unfold parseEnd
  simp only []
  split <;> split <;> exact ⟨_, _, _, rfl⟩

theorem noNul_behind {ps : List Param} (h : ∀ p ∈ ps, 0 ∉ p.name ∧ 0 ∉ p.value) :
    0 ∉ behind ps := by
  intro h0
  obtain ⟨p, hp, hmem⟩ := List.mem_flatMap.mp h0
  obtain ⟨hname, hvalue⟩ := h p hp
  revert hmem
  cases hq : p.inQuotes <;>
    simp [Param.text, quoted, hq, hname, hvalue, (by decide : (0 : UInt8) ≠ comma),
      (by decide : (0 : UInt8) ≠ space), (by decide : (0 : UInt8) ≠ equals),
      (by decide : (0 : UInt8) ≠ quote)]

/-- No field of a challenge holds a NUL, so neither does its text. -/
theorem noNul_challenge {d : HttpAuth} (hd : Challenge d) : 0 ∉ (responseTexts d).flatten := by
  obtain ⟨hrealm, hdomain, hnonce, hopaqueText, -⟩ : 0 ∉ d.realm.text ∧ 0 ∉ d.domain.text ∧
      0 ∉ d.nonce.text ∧ 0 ∉ d.opaque_.text ∧ True := by simpa using hd.texts
  have hstale : 0 ∉ staleText d.stale := by cases d.stale <;> decide
  have hqop : 0 ∉ qopText d.qop := by
    rcases hd.qop with h | h | h | h <;> rw [h] <;> decide
  have hparams : ∀ p ∈ realmParam d :: challengeParams d, 0 ∉ p.name ∧ 0 ∉ p.value := by
    rw [challengeParams, List.forall_mem_cons]
    simp only [List.forall_mem_append, List.forall_mem_singleton]
    refine ⟨⟨(by decide : 0 ∉ realmName), hrealm⟩, ⟨⟨⟨⟨?_, ?_⟩, ?_⟩, ?_⟩, ?_⟩, ?_⟩
    · exact forall_paramIf _ ⟨(by decide : 0 ∉ domainName), hdomain⟩
    · exact ⟨by decide, hnonce⟩
    · exact forall_paramIf _ ⟨(by decide : 0 ∉ opaqueName), hopaqueText⟩
    · exact ⟨by decide, hstale⟩
    · exact forall_paramIf _ ⟨by decide, by decide⟩
    · exact forall_paramIf _ ⟨(by decide : 0 ∉ qopName), hqop⟩
  have hbehind := noNul_behind hparams
  rw [behind_cons] at hbehind
  rw [flatten_responseTexts hd.type]
  simp only [List.mem_cons, List.mem_append, not_or] at hbehind ⊢
  exact ⟨by decide, hbehind.2⟩

theorem httpAuthParse_challenge (o : Outside) (d₀ : HttpAuth) {d : HttpAuth} (hd : Challenge d) :
    ∃ fuel nc sessNonce cnonce, httpAuthParse o fuel d₀ (responseTexts d).flatten =
      .ok (0, { httpAuthEmpty d₀ with
        type := .HTTP_AUTH_DIGEST, realm := d.realm, domain := d.domain, nonce := d.nonce
        opaque_ := d.opaque_, stale := d.stale, algorithm := d.algorithm, qop := readQop d.qop
        nc := nc, sessNonce := sessNonce, cnonce := cnonce }) := by
  have htake := take_challenge (e := { httpAuthEmpty d₀ with type := .HTTP_AUTH_DIGEST }) hd rfl rfl
    rfl rfl
  obtain ⟨fuel, hloop⟩ := paramsLoop_behind o _ (plain_challenge hd) htake
  obtain ⟨nc, sessNonce, cnonce, hend⟩ := parseEnd_keeps o _
  rw [hend] at hloop
  refine ⟨fuel, nc, sessNonce, cnonce, ?_⟩
  rw [flatten_responseTexts hd.type, httpAuthParse, scheme_digest]
  have hfirst := (plain_challenge hd) _ List.mem_cons_self
  rw [skipSeparators_behind hfirst] at hloop
  exact hloop

theorem recovers_challenge_iff (o : Outside) (d₀ : HttpAuth) {d : HttpAuth} (hd : Challenge d) :
    Recovers o d₀ (responseTexts d).flatten d ↔ d.qop ≠ AUTH_QOP_AUTH ||| AUTH_QOP_AUTH_INT := by
  obtain ⟨fuel, nc, sessNonce, cnonce, hparse⟩ := httpAuthParse_challenge o d₀ hd
  constructor
  · rintro ⟨fuel', d', hparse', -, -, -, -, -, -, hqop⟩ hboth
    obtain ⟨-, rfl⟩ := Prod.mk.inj (httpAuthParse_unique o hparse' hparse)
    rw [hboth] at hqop
    have hread : readQop (AUTH_QOP_AUTH ||| AUTH_QOP_AUTH_INT) =
      AUTH_QOP_AUTH ||| AUTH_QOP_AUTH_INT := hqop
    exact absurd hread (by decide)
  · intro hone
    refine ⟨fuel, _, hparse, rfl, rfl, rfl, rfl, rfl, rfl, ?_⟩
    exact if_neg hone

/-- The text in the buffer that a challenge is written to. -/
theorem cstr_challenge {d : HttpAuth} (hd : Challenge d) (buf : List UInt8) {size : UInt64}
    (hroom : (responseTexts d).flatten.length < size.toNat) :
    cstr (written buf (httpAuthResponse d size).2) = (responseTexts d).flatten := by
  have hne : responseTexts d ≠ [] := by
    simp [responseTexts, hd.type]
  rw [httpAuthResponse_eq, written_formatted buf size hne hroom,
    cstr_overwrite (noNul_challenge hd)]

/-- A challenge that fits its buffer is read as it was written exactly if
its `qop` is not both words. -/
theorem challenge_recovered_iff (o : Outside) (d₀ : HttpAuth) {d : HttpAuth} (hd : Challenge d)
    (buf : List UInt8) {size : UInt64} (hroom : (responseTexts d).flatten.length < size.toNat) :
    Recovers o d₀ (cstr (written buf (httpAuthResponse d size).2)) d ↔
      d.qop ≠ AUTH_QOP_AUTH ||| AUTH_QOP_AUTH_INT := by
  rw [cstr_challenge hd buf hroom]
  exact recovers_challenge_iff o d₀ hd

/-- A challenge for the realm "home". -/
def homeChallenge (qop : UInt32) : HttpAuth :=
  { (default : HttpAuth) with
    type := .HTTP_AUTH_DIGEST
    realm := Field.cut (lit ['h', 'o', 'm', 'e'])
    nonce := Field.cut (lit ['7', 'f'])
    qop := qop }

theorem challenge_homeChallenge {qop : UInt32}
    (h : qop = AUTH_QOP_NONE ∨ qop = AUTH_QOP_AUTH ∨ qop = AUTH_QOP_AUTH_INT ∨
      qop = AUTH_QOP_AUTH ||| AUTH_QOP_AUTH_INT) : Challenge (homeChallenge qop) where
  type := rfl
  texts := (by decide : ∀ t ∈ [lit ['h', 'o', 'm', 'e'], [], lit ['7', 'f'], []], 0 ∉ t)
  quoted := (by decide : ∀ t ∈ [lit ['h', 'o', 'm', 'e'], [], []], quote ∉ t)
  nonce := ne_three
    (by decide : quote ∉ lit ['7', 'f'] ∧ comma ∉ lit ['7', 'f'] ∧ space ∉ lit ['7', 'f'])
  algorithm := .inl rfl
  qop := h

/-- What is outside where nothing of it is used. -/
def noOutside : Outside := ⟨fun _ => some [], fun _ _ => [], 0, 0, 0, 0⟩

theorem challenge_recovered_auth :
    Recovers noOutside default
      (cstr (written [] (httpAuthResponse (homeChallenge AUTH_QOP_AUTH) 64).2))
      (homeChallenge AUTH_QOP_AUTH) ↔
    (homeChallenge AUTH_QOP_AUTH).qop ≠ AUTH_QOP_AUTH ||| AUTH_QOP_AUTH_INT :=
  challenge_recovered_iff noOutside default (challenge_homeChallenge (.inr (.inl rfl))) []
    (by decide)

/-- A challenge for `auth` and `auth-int`. -/
theorem challenge_not_recovered :
    ¬ ∀ (o : Outside) (d₀ d : HttpAuth) (buf : List UInt8) (size : UInt64), Challenge d →
      (responseTexts d).flatten.length < size.toNat →
        Recovers o d₀ (cstr (written buf (httpAuthResponse d size).2)) d := by
  intro h
  have hd : Challenge (homeChallenge (AUTH_QOP_AUTH ||| AUTH_QOP_AUTH_INT)) :=
    challenge_homeChallenge (.inr (.inr (.inr rfl)))
  have hroom :
    (responseTexts (homeChallenge (AUTH_QOP_AUTH ||| AUTH_QOP_AUTH_INT))).flatten.length <
      (128 : UInt64).toNat := by decide
  have hread := h noOutside default _ [] 128 hd hroom
  rw [cstr_challenge hd [] hroom, recovers_challenge_iff noOutside default hd] at hread
  exact hread rfl

end Nanio.Auth

/-
Nanio.Auth.NonceCount — the nonce count of `http_auth_parse` over calls on
one structure.

Behind the loop the parser compares the nonce with that of the session and
counts one up where they agree. But it has emptied both of them, and the
count, before it reads the header: there is never a count to go on from, and
each call that brings none leaves 00000001 (`calls_one`). So the counts are
right exactly as long as no challenge repeats the nonce of the one before
(`nonceCount_iff`).
-/
import Nanio.Auth.ChallengeRoundTrip
import Mathlib.Data.List.Chain

namespace Nanio.Auth

open Nanio.Lib

/-! ## §1 What a header names -/

/-- The text that `stract` copies from. -/
def copied (v : Text) (len : Int) : Text := v.take (if len < 0 then v.length else len.toNat)

/-- The parameters of a header, in at most so many: what stands in front of
the equals sign, as much of it as `id` takes, and the value, if its quote is
closed. -/
def headerParams : Nat → Text → List (Text × Option Text)
  | 0, _ => []
  | n + 1, auth =>
    let auth := skipSpaces auth
    match strchr equals auth with
    | some eq =>
      let id : Field 16 := stract auth (auth.length - eq.length)
      let value := paramValue (eq.drop 1)
      (id.text, value.1.map fun w => copied w.1 w.2) ::
        value.2.elim [] fun next => headerParams n (skipSeparators next)
    | none => []

/-- Those behind the word `digest`. -/
def digestParams (auth : Text) : List (Text × Option Text) :=
  let auth := (skipSpaces auth).drop 7
  headerParams auth.length auth

/-- The nonce after a parameter. -/
def nonceAfter (nonce : Field 64) (p : Text × Option Text) : Field 64 :=
  if p.1 = nonceName then (p.2.map Field.cut).getD nonce else nonce

/-- The nonce of a challenge: the last that it names, as much as fits. -/
def nonceOf (auth : Text) : Field 64 := (digestParams auth).foldl nonceAfter default

/-- A challenge of the digest scheme without `nc`. -/
def DigestChallenge (auth : Text) : Prop :=
  Map.strncaseEq (skipSpaces auth) digest 7 = true ∧ ncName ∉ (digestParams auth).map Prod.fst

instance (auth : Text) : Decidable (DigestChallenge auth) := inferInstanceAs (Decidable (_ ∧ _))

/-! ## §2 One call -/

theorem findOption_mem {id : Text} {opt : Opt} (h : findOption id = some opt) :
    (id, opt) ∈ ids := by
  obtain ⟨p, hp, rfl⟩ := Option.map_eq_some_iff.mp h
  have hid := List.find?_some hp
  obtain rfl : p.1 = id := by simpa using hid
  exact List.mem_of_find?_eq_some hp

/-- Each option has one name. -/
theorem findOption_nonce_iff (id : Text) : findOption id = some .nonce ↔ id = nonceName := by
  constructor
  · intro h
    have hmem := findOption_mem h
    simpa [ids, nonceName] using hmem
  · rintro rfl
    decide

theorem findOption_nc {id : Text} (h : findOption id = some .nc) : id = ncName := by
  have hmem := findOption_mem h
  simpa [ids, ncName] using hmem

theorem store_nonce (d : HttpAuth) (v : Text) (len : Int) (opt : Opt) :
    (d.store v len opt).nonce = if opt = .nonce then Field.cut (copied v len) else d.nonce := by
  cases opt <;> rfl

theorem store_nc (d : HttpAuth) (v : Text) (len : Int) {opt : Opt} (h : opt ≠ .nc) :
    (d.store v len opt).nc = d.nc := by
  cases opt with
  | nc => exact absurd rfl h
  | _ => rfl

/-- What a parameter does to the nonce and to its count. -/
theorem storeParam_nonce {o : Outside} {start : Text} {d d' : HttpAuth} {id : Text}
    {written : Option (Text × Int)} (h : storeParam o start d id written = .ok d') :
    d'.nonce = nonceAfter d.nonce (id, written.map fun w => copied w.1 w.2) ∧
      (id ≠ ncName → d'.nc = d.nc) := by
  unfold nonceAfter
  rcases storeParam_ok h with ⟨opt, v, len, hopt, rfl, rfl⟩ | ⟨rfl, rfl⟩ |
    ⟨hnone, qop, algorithm, stale, rfl⟩
  · have hiff : opt = .nonce ↔ id = nonceName := by
      rw [← findOption_nonce_iff, hopt, Option.some.injEq]
    refine ⟨?_, fun hid => store_nc d v len fun hnc => hid (findOption_nc (hnc ▸ hopt))⟩
    rw [store_nonce]
    simp only [hiff]
    rfl
  · exact ⟨by simp, fun _ => rfl⟩
  · have hother : id ≠ nonceName := by
      rw [ne_eq, ← findOption_nonce_iff, hnone]
      simp
    rw [if_neg hother]
    exact ⟨rfl, fun _ => rfl⟩

/-- The parameters from where `auth` points on. -/
def paramsAt (n : Nat) (auth : Option Text) : List (Text × Option Text) :=
  auth.elim [] fun t => headerParams n t

/-- The loop is on its way to this nonce, and has not touched the count. -/
structure Toward (nonce : Field 64) (nc : Field 16) (n : Nat) (d : HttpAuth)
    (auth : Option Text) : Prop where
  type : d.type ≠ .HTTP_AUTH_BASIC
  enough : ∀ t ∈ auth, t.length ≤ n
  noCount : ncName ∉ (paramsAt n auth).map Prod.fst
  nonce : (paramsAt n auth).foldl nonceAfter d.nonce = nonce
  nc : d.nc = nc

section

variable {o : Outside} {nonce : Field 64} {nc : Field 16} {n : Nat} {d : HttpAuth} {t : Text}

/-- Without an equals sign a round only moves over blanks. -/
theorem Toward.blanks (h : Toward nonce nc n d (some t)) :
    Toward nonce nc n d (some (skipSpaces t)) := by
  have hsame : paramsAt n (some (skipSpaces t)) = paramsAt n (some t) := by
    cases n with
    | zero => rfl
    | succ n => simp only [paramsAt, Option.elim_some, headerParams, skipSpaces_skipSpaces]
  have hle : (skipSpaces t).length ≤ t.length := (List.dropWhile_suffix _).length_le
  refine ⟨h.type, fun s hs => ?_, hsame ▸ h.noCount, hsame ▸ h.nonce, h.nc⟩
  obtain rfl := Option.some.inj hs
  exact hle.trans (h.enough t rfl)

/-- What is behind a parameter is shorter. -/
theorem length_behind_param {eq next : Text} (heq : strchr equals (skipSpaces t) = some eq)
    (hnext : (paramValue (eq.drop 1)).2 = some next) :
    (skipSeparators next).length < t.length := by
  obtain ⟨name, value, hskip, rfl, -⟩ := (strchr_eq_some_iff _ _ _).mp heq
  rw [List.drop_one, List.tail_cons] at hnext
  have hforward := forward_param name hnext
  have hle : (skipSpaces t).length ≤ t.length := (List.dropWhile_suffix _).length_le
  rw [← hskip] at hforward
  exact Nat.lt_of_lt_of_le hforward.2 hle

/-- A parameter is taken from the list, and the loop is on its way from
behind it. -/
theorem Toward.param (h : Toward nonce nc (n + 1) d (some t)) {eq : Text}
    (heq : strchr equals (skipSpaces t) = some eq) {e : HttpAuth}
    (hstore : storeParam o t d
      (stract (skipSpaces t) ((skipSpaces t).length - eq.length) : Field 16).text
      (paramValue (eq.drop 1)).1 = .ok e) :
    Toward nonce nc n e ((paramValue (eq.drop 1)).2.map skipSeparators) := by
  obtain ⟨hnonce, hkeep⟩ := storeParam_nonce hstore
  have hcons : headerParams (n + 1) t =
      ((stract (skipSpaces t) ((skipSpaces t).length - eq.length) : Field 16).text,
        (paramValue (eq.drop 1)).1.map fun w => copied w.1 w.2) ::
      paramsAt n ((paramValue (eq.drop 1)).2.map skipSeparators) := by
    simp only [headerParams, heq]
    cases (paramValue (eq.drop 1)).2 <;> rfl
  have hnames := h.noCount
  have hfold := h.nonce
  rw [paramsAt, Option.elim_some, hcons] at hnames hfold
  rw [List.map_cons, List.mem_cons, not_or] at hnames
  refine ⟨?_, ?_, hnames.2, ?_, ?_⟩
  · rcases storeParam_cases o t d _ _ with ⟨e', he', htype⟩ | ⟨-, hno⟩
    · obtain rfl := Except.ok.inj (hstore.symm.trans he')
      exact htype ▸ h.type
    · cases hstore.symm.trans hno
  · intro s hs
    obtain ⟨next, hnext, rfl⟩ := Option.map_eq_some_iff.mp hs
    have hshorter := length_behind_param heq hnext
    have hlen := h.enough t rfl
    omega
  · rw [hnonce]
    exact hfold
  · rw [hkeep (Ne.symm hnames.1)]
    exact h.nc

/-- A round keeps the loop on its way. -/
theorem Toward.round (h : Toward nonce nc n d (some t)) (hne : t ≠ []) {round : Round}
    (hround : parseRound o d t = .ok round) :
    ∃ e auth m, round = .goesOn e auth ∧ Toward nonce nc m e auth := by
  have hlen := h.enough t rfl
  have hpos := List.length_pos_of_ne_nil hne
  obtain ⟨n, rfl⟩ := Nat.exists_eq_succ_of_ne_zero (by omega : n ≠ 0)
  cases heq : strchr equals (skipSpaces t) with
  | none =>
    have hgoes : parseRound o d t = .ok (.goesOn d (some (skipSpaces t))) := by
      simp only [parseRound, heq, if_neg h.type]
      rfl
    exact ⟨d, _, n + 1, Except.ok.inj (hround.symm.trans hgoes), h.blanks⟩
  | some eq =>
    obtain ⟨e, hstore, hgoes⟩ := parseRound_equals heq hround
    exact ⟨e, _, n, hgoes, h.param heq hstore⟩

/-- The loop arrives. -/
theorem Toward.arrives {fuel : Nat} {auth : Option Text} (h : Toward nonce nc n d auth) {r : Int}
    {d' : HttpAuth} (hloop : paramsLoop o fuel d auth = .ok (r, d')) :
    r = 0 ∧ ∃ e, d' = parseEnd o e ∧ e.nonce = nonce ∧ e.nc = nc := by
  induction fuel generalizing d auth n with
  | zero => cases hloop
  | succ fuel ih =>
    match auth with
    | none =>
      obtain ⟨rfl, rfl⟩ := Prod.mk.inj (Except.ok.inj hloop)
      exact ⟨rfl, d, rfl, h.nonce, h.nc⟩
    | some [] =>
      obtain ⟨rfl, rfl⟩ := Prod.mk.inj (Except.ok.inj hloop)
      have hnone : paramsAt n (some []) = [] := by cases n <;> rfl
      have hnonce := h.nonce
      rw [hnone] at hnonce
      exact ⟨rfl, d, rfl, hnonce, h.nc⟩
    | some (c :: t) =>
      obtain ⟨round, hround, hrest⟩ := except_bind_eq_ok.mp hloop
      obtain ⟨e, auth, m, rfl, he⟩ := h.round (by simp) hround
      exact ih he hrest

end

/-- `00000001`. -/
def firstCount : Text := lit ['0', '0', '0', '0', '0', '0', '0', '1']

/-- A challenge without a count is the first of its nonce, whatever the
structure held before. -/
theorem httpAuthParse_nonce {o : Outside} {fuel : Nat} {d d' : HttpAuth} {auth : Text} {r : Int}
    (hauth : DigestChallenge auth) (h : httpAuthParse o fuel d auth = .ok (r, d')) :
    r = 0 ∧ d'.nonce = nonceOf auth ∧ d'.nc.text = firstCount := by
  obtain ⟨hdigest, hnc⟩ := hauth
  have hscheme : scheme (httpAuthEmpty d) auth =
      some ({ httpAuthEmpty d with type := .HTTP_AUTH_DIGEST }, (skipSpaces auth).drop 7) := by
    simp only [scheme, hdigest, if_true]
  rw [httpAuthParse, hscheme] at h
  have hstart : Toward (nonceOf auth) default ((skipSpaces auth).drop 7).length
      { httpAuthEmpty d with type := .HTTP_AUTH_DIGEST } (some ((skipSpaces auth).drop 7)) :=
    ⟨by simp, fun t ht => Option.some.inj ht ▸ Nat.le_refl _, hnc, rfl, rfl⟩
  obtain ⟨hr, e, rfl, hnonce, hcount⟩ := hstart.arrives h
  have hempty : e.nc.text = [] := congrArg Field.text hcount
  refine ⟨hr, ?_, ?_⟩
  · obtain ⟨nc, sessNonce, cnonce, hend⟩ := parseEnd_keeps o e
    rw [hend]
    exact hnonce
  · unfold parseEnd
    simp only [hempty, true_or, if_true]
    split <;> rfl

/-! ## §3 Runs -/

/-- The structure after these calls, the last one first. -/
def latest (d₀ : HttpAuth) (calls : List (Text × HttpAuth)) : HttpAuth :=
  (calls.head?.map Prod.snd).getD d₀

/-- Calls one after the other, each with a challenge and the structure that
it leaves. -/
inductive Calls (d₀ : HttpAuth) : List (Text × HttpAuth) → Prop where
  | nil : Calls d₀ []
  | cons {o : Outside} {fuel : Nat} {calls : List (Text × HttpAuth)} {auth : Text} {r : Int}
      {d : HttpAuth} (hcalls : Calls d₀ calls) (hauth : DigestChallenge auth)
      (h : httpAuthParse o fuel (latest d₀ calls) auth = .ok (r, d)) :
      Calls d₀ ((auth, d) :: calls)

/-- The challenges received in a row with the nonce of a call, up to it. -/
def received (d : HttpAuth) (earlier : List (Text × HttpAuth)) : Nat :=
  (earlier.takeWhile fun call => call.2.nonce = d.nonce).length + 1

/-- After each call the count is the number of challenges received with its
nonce. -/
def CountsRight (calls : List (Text × HttpAuth)) : Prop :=
  ∀ call earlier, call :: earlier <:+ calls →
    call.2.nc.text = hexNumber Http.hexDigits 8 (received call.2 earlier)

/-- What a run knows of each call. -/
theorem calls_one {d₀ : HttpAuth} {calls : List (Text × HttpAuth)} (h : Calls d₀ calls) :
    ∀ call ∈ calls, call.2.nonce = nonceOf call.1 ∧ call.2.nc.text = firstCount := by
  induction h with
  | nil => exact List.forall_mem_nil _
  | cons _ hauth hparse ih =>
    exact List.forall_mem_cons.mpr ⟨(httpAuthParse_nonce hauth hparse).2, ih⟩

/-- The number that a text of hexadecimal digits stands for. -/
def hexText (t : Text) : Nat := t.foldl (fun n c => n * 16 + (hexValue c).getD 0) 0

theorem hexText_zeros (k : Nat) (t : Text) :
    hexText (List.replicate k (ascii '0') ++ t) = hexText t := by
  induction k with
  | zero => rfl
  | succ k ih => exact ih

theorem hexText_digits {ds : List Nat} (hds : ∀ k ∈ ds, k < 16) :
    hexText (ds.reverse.map fun k => Http.hexDigits.getD k 0) = Nat.ofDigits 16 ds := by
  have hdigit : ∀ k : Fin 16, (hexValue (Http.hexDigits.getD k 0)).getD 0 = k := by decide
  induction ds with
  | nil => rfl
  | cons k ds ih =>
    obtain ⟨hk, hrest⟩ := List.forall_mem_cons.mp hds
    have hlast := hdigit ⟨k, hk⟩
    rw [hexText] at ih ⊢
    simp only [List.reverse_cons, List.map_append, List.map_cons, List.map_nil, List.foldl_append,
      List.foldl_cons, List.foldl_nil, ih hrest, Nat.ofDigits_cons]
    simp only [hlast]
    omega

/-- The number can be read off its text. -/
theorem hexText_hexNumber (width n : Nat) : hexText (hexNumber Http.hexDigits width n) = n := by
  have hlt : ∀ k ∈ Nat.digits 16 n, k < 16 := fun k hk => Nat.digits_lt_base (by decide) hk
  rw [hexNumber, hexText_zeros, hexText_digits hlt, Nat.ofDigits_digits]

theorem firstCount_iff (n : Nat) : firstCount = hexNumber Http.hexDigits 8 n ↔ n = 1 := by
  constructor
  · intro h
    have hvalue := congrArg hexText h
    rw [hexText_hexNumber] at hvalue
    exact hvalue.symm
  · rintro rfl
    decide

/-- A call is the first with its nonce if the call before has another. -/
theorem received_eq_one_iff (d : HttpAuth) (earlier : List (Text × HttpAuth)) :
    received d earlier = 1 ↔ ∀ call ∈ earlier.head?, call.2.nonce ≠ d.nonce := by
  rw [received]
  cases earlier with
  | nil => simp
  | cons call earlier => by_cases h : call.2.nonce = d.nonce <;> simp [h]

theorem countsRight_cons (call : Text × HttpAuth) (earlier : List (Text × HttpAuth)) :
    CountsRight (call :: earlier) ↔
      call.2.nc.text = hexNumber Http.hexDigits 8 (received call.2 earlier) ∧
        CountsRight earlier := by
  constructor
  · intro h
    exact ⟨h call earlier (List.suffix_refl _),
      fun call' earlier' hsuffix => h call' earlier' (hsuffix.trans (List.suffix_cons _ _))⟩
  · rintro ⟨hcall, hrest⟩ call' earlier' hsuffix
    rcases List.suffix_cons_iff.mp hsuffix with heq | hsuffix
    · obtain ⟨rfl, rfl⟩ := List.cons.inj heq
      exact hcall
    · exact hrest call' earlier' hsuffix

/-- Counts that are all 1 are right if no nonce is followed by itself. -/
theorem countsRight_iff {calls : List (Text × HttpAuth)}
    (h : ∀ call ∈ calls, call.2.nonce = nonceOf call.1 ∧ call.2.nc.text = firstCount) :
    CountsRight calls ↔
      calls.IsChain fun call before => nonceOf call.1 ≠ nonceOf before.1 := by
  induction calls with
  | nil => exact iff_of_true (fun call earlier hsuffix => by simp at hsuffix) .nil
  | cons call earlier ih =>
    obtain ⟨⟨hnonce, hcount⟩, hrest⟩ := List.forall_mem_cons.mp h
    rw [countsRight_cons, hcount, firstCount_iff, received_eq_one_iff, ih hrest,
      List.isChain_cons, hnonce]
    refine and_congr_left fun _ => forall₂_congr fun before hbefore => ?_
    rw [(hrest before (List.mem_of_mem_head? hbefore)).1]
    exact ne_comm

/-- In a run of challenges without a count, the count is that of the
challenges received in a row with the nonce, after each call, exactly if no
challenge has the nonce of the one before it. -/
theorem nonceCount_iff {d₀ : HttpAuth} {calls : List (Text × HttpAuth)} (h : Calls d₀ calls) :
    CountsRight calls ↔
      calls.IsChain fun call before => nonceOf call.1 ≠ nonceOf before.1 :=
  countsRight_iff (calls_one h)

/-- A challenge with a nonce of one letter. -/
def challengeOf (c : Char) : Text := digest ++ lit ['n', 'o', 'n', 'c', 'e', '=', c]

/-- The structure behind it. -/
def afterChallenge (c : Char) : HttpAuth :=
  parseEnd noOutside
    { httpAuthEmpty default with type := .HTTP_AUTH_DIGEST, nonce := Field.cut (lit [c]) }

theorem httpAuthParse_challengeOf (d : HttpAuth) {c : Char} (hc : c = 'a' ∨ c = 'b') :
    httpAuthParse noOutside 2 d (challengeOf c) = .ok (0, afterChallenge c) := by
  have hempty : httpAuthEmpty d = httpAuthEmpty default := rfl
  rw [httpAuthParse, hempty]
  rcases hc with rfl | rfl <;> rfl

theorem calls_challengeOf {c : Char} (hc : c = 'a' ∨ c = 'b') :
    Calls default [(challengeOf c, afterChallenge c), (challengeOf 'a', afterChallenge 'a')] := by
  have hfirst : Calls default [(challengeOf 'a', afterChallenge 'a')] :=
    .cons .nil (by decide) (httpAuthParse_challengeOf _ (.inl rfl))
  refine .cons hfirst ?_ (httpAuthParse_challengeOf _ hc)
  rcases hc with rfl | rfl <;> decide

theorem nonceCount_changed :
    CountsRight [(challengeOf 'b', afterChallenge 'b'), (challengeOf 'a', afterChallenge 'a')] :=
  (nonceCount_iff (calls_challengeOf (.inr rfl))).mpr (by decide)

/-- The same challenge twice. -/
theorem nonceCount_repeated :
    ¬ ∀ (d₀ : HttpAuth) (calls : List (Text × HttpAuth)), Calls d₀ calls → CountsRight calls := by
  intro h
  have hcalls := calls_challengeOf (.inl rfl)
  have hchain := (countsRight_iff (calls_one hcalls)).mp (h default _ hcalls)
  rw [List.isChain_cons_cons] at hchain
  exact hchain.1 rfl

end Nanio.Auth

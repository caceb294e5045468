/-
Nanio.Auth.ParseEnds — when the loop of `http_auth_parse` ends.

A round that finds an equals sign goes on behind the value, and a round
that finds none returns, for the basic scheme. For the digest scheme it
goes on where it is, behind the blanks: a text without an equals sign that
is not blank is never left (`not_ends_of_stuck`). The loop ends exactly for
the header values that do not come to such a text (`Params`, §1).
-/
import Nanio.Auth.HttpAuth
import Mathlib.Data.List.DropRight
import Mathlib.Logic.Relation

namespace Nanio.Auth

open Nanio.Lib Relation

/-! ## §1 Header values -/

/-- A value, and what is behind it: in quotes or up to a separator, or up
to the end. -/
inductive ParamValue : Text → Option Text → Prop where
  | quoted {v rest : Text} (hv : quote ∉ v) :
      ParamValue (quote :: (v ++ quote :: rest)) (some rest)
  | unclosed {v : Text} (hv : quote ∉ v) : ParamValue (quote :: v) none
  | bare {v rest : Text} {c : UInt8} (hq : (v ++ c :: rest).head? ≠ some quote)
      (hv : ∀ x ∈ v, x ∉ [comma, space]) (hc : c ∈ [comma, space]) :
      ParamValue (v ++ c :: rest) (some (c :: rest))
  | last {v : Text} (hq : v.head? ≠ some quote) (hv : ∀ x ∈ v, x ∉ [comma, space]) :
      ParamValue v none

/-- Parameters, each with an equals sign, up to the end or to blanks. -/
inductive Params : Text → Prop where
  | blank {t : Text} (h : ∀ c ∈ t, c = space) : Params t
  | last {name value : Text} (hname : equals ∉ name) (hvalue : ParamValue value none) :
      Params (name ++ equals :: value)
  | param {name value rest : Text} (hname : equals ∉ name) (hvalue : ParamValue value (some rest))
      (hrest : Params (skipSeparators rest)) : Params (name ++ equals :: value)

theorem paramValue_spec (value : Text) : ParamValue value (paramValue value).2 := by
  by_cases hq : value.head? = some quote
  · obtain ⟨v, rfl⟩ := List.head?_eq_some_iff.mp hq
    simp only [paramValue, hq, if_true, List.drop_one, List.tail_cons]
    cases hend : strchr quote v with
    | none => exact .unclosed ((strchr_eq_none_iff _ _).mp hend)
    | some s =>
      obtain ⟨w, rest, rfl, rfl, hw⟩ := (strchr_eq_some_iff _ _ _).mp hend
      exact .quoted hw
  · simp only [paramValue, hq, if_false]
    cases hend : strpbrk [comma, space] value with
    | none => exact .last hq ((strpbrk_eq_none_iff _ _).mp hend)
    | some s =>
      obtain ⟨w, c, rest, rfl, rfl, hw, hc⟩ := (strpbrk_eq_some_iff _ _ _).mp hend
      exact .bare hq hw hc

theorem ParamValue.eq {value : Text} {next : Option Text} (h : ParamValue value next) :
    (paramValue value).2 = next := by
  cases h with
  | @quoted v rest hv =>
    have hend := (strchr_eq_some_iff quote _ _).mpr ⟨v, rest, rfl, rfl, hv⟩
    simp [paramValue, hend]
  | unclosed hv =>
    have hend := (strchr_eq_none_iff _ _).mpr hv
    simp [paramValue, hend]
  | @bare v rest c hq hv hc =>
    have hend := (strpbrk_eq_some_iff [comma, space] _ _).mpr ⟨v, c, rest, rfl, rfl, hv, hc⟩
    simp only [paramValue, hq, if_false, hend]
  | last hq hv =>
    have hend := (strpbrk_eq_none_iff [comma, space] value).mpr hv
    simp only [paramValue, hq, if_false, hend]

/-- What is behind a value is behind it in the text. -/
theorem ParamValue.suffix {value rest : Text} (h : ParamValue value (some rest)) :
    rest <:+ value := by
  generalize hnext : some rest = next at h
  cases h with
  | @quoted v _ hv =>
    obtain rfl := Option.some.inj hnext
    exact ⟨quote :: (v ++ [quote]), by simp⟩
  | @bare v _ c =>
    obtain rfl := Option.some.inj hnext
    exact ⟨v, rfl⟩
  | unclosed => cases hnext
  | last => cases hnext

theorem params_param_iff {name : Text} (hname : equals ∉ name) (value : Text) :
    Params (name ++ equals :: value) ↔
      ∀ rest, (paramValue value).2 = some rest → Params (skipSeparators rest) := by
  constructor
  · intro h rest hnext
    generalize htext : name ++ equals :: value = t at h
    cases h with
    | blank hblank =>
      have hspace := hblank equals (by simp [← htext])
      exact absurd hspace (by decide)
    | last hname' hvalue =>
      obtain ⟨-, rfl⟩ := text_cut_inj hname hname' htext
      rw [hvalue.eq] at hnext
      cases hnext
    | param hname' hvalue hrest =>
      obtain ⟨-, rfl⟩ := text_cut_inj hname hname' htext
      rw [hvalue.eq] at hnext
      obtain rfl := Option.some.inj hnext
      exact hrest
  · intro h
    have hvalue := paramValue_spec value
    cases hnext : (paramValue value).2 with
    | none => exact .last hname (hnext ▸ hvalue)
    | some rest => exact .param hname (hnext ▸ hvalue) (h rest hnext)

/-- A header value that the parser comes to an end with: of the digest
scheme only if there are parameters behind it. -/
def WellFormed (auth : Text) : Prop :=
  Map.strncaseEq (skipSpaces auth) digest 7 = true → Params ((skipSpaces auth).drop 7)

/-! ## §2 One round -/

theorem skipSpaces_eq_nil_iff (t : Text) : skipSpaces t = [] ↔ ∀ c ∈ t, c = space := by
  simp [skipSpaces, List.dropWhile_eq_nil_iff (l := t)]

theorem skipSpaces_skipSpaces (t : Text) : skipSpaces (skipSpaces t) = skipSpaces t :=
  List.dropWhile_idempotent _ t

theorem skipSpaces_param (name value : Text) :
    skipSpaces (name ++ equals :: value) = skipSpaces name ++ equals :: value := by
  have hstop : skipSpaces (equals :: value) = equals :: value :=
    List.dropWhile_cons_of_neg (by decide)
  induction name with
  | nil => exact hstop
  | cons c name ih =>
    by_cases hc : c = space
    · simpa [skipSpaces, hc] using ih
    · simp [skipSpaces, hc]

/-- A text is blank, has no equals sign, or starts with a parameter. -/
theorem text_cases (t : Text) :
    (∀ c ∈ t, c = space) ∨ (equals ∉ t ∧ skipSpaces t ≠ []) ∨
      ∃ name value, equals ∉ name ∧ t = name ++ equals :: value := by
  by_cases hin : equals ∈ t
  · obtain ⟨name, value, rfl, hname⟩ := List.eq_append_cons_of_mem hin
    exact .inr (.inr ⟨name, value, hname, rfl⟩)
  · by_cases hblank : skipSpaces t = []
    · exact .inl ((skipSpaces_eq_nil_iff t).mp hblank)
    · exact .inr (.inl ⟨hin, hblank⟩)

theorem store_type (d : HttpAuth) (v : Text) (len : Int) (opt : Opt) :
    (d.store v len opt).type = d.type := by
  cases opt <;> rfl

/-- Only an array that holds no text is not looked through. -/
theorem otherParam_cases (d : HttpAuth) (id : Text) (value : Option Text) :
    (∃ d', otherParam d id value = .ok d' ∧ d'.type = d.type) ∨
      (value = none ∧ otherParam d id value = .error .outOfText) := by
  unfold otherParam
  split_ifs
  · cases value with
    | some c => exact .inl ⟨_, rfl, rfl⟩
    | none => exact .inr ⟨rfl, rfl⟩
  all_goals exact .inl ⟨_, rfl, rfl⟩

/-- A name that is no field changes three others. -/
theorem otherParam_only {d d' : HttpAuth} {id : Text} {value : Option Text}
    (h : otherParam d id value = .ok d') :
    ∃ qop algorithm stale, d' = { d with qop := qop, algorithm := algorithm, stale := stale } := by
  unfold otherParam at h
  split_ifs at h
  · cases value with
    | some c =>
      obtain rfl := Except.ok.inj h
      exact ⟨_, _, _, rfl⟩
    | none => cases h
  all_goals
    obtain rfl := Except.ok.inj h
    exact ⟨_, _, _, rfl⟩

/-- Where a value is not copied the loop is left. -/
theorem paramValue_none {value : Text} (h : (paramValue value).1 = none) :
    (paramValue value).2 = none := by
  unfold paramValue at h ⊢
  split_ifs at h ⊢
  · cases hend : strchr quote (value.drop 1) with
    | none => simp only [hend]
    | some next => simp only [hend, reduceCtorEq] at h
  · cases hend : strpbrk [comma, space] value with
    | none => rfl
    | some next => simp only [hend, reduceCtorEq] at h

theorem storeParam_cases (o : Outside) (start : Text) (d : HttpAuth) (id : Text)
    (written : Option (Text × Int)) :
    (∃ d', storeParam o start d id written = .ok d' ∧ d'.type = d.type) ∨
      (written = none ∧ storeParam o start d id written = .error .outOfText) := by
  cases written with
  | some value =>
    rw [storeParam]
    cases findOption id with
    | some opt => exact .inl ⟨_, rfl, store_type _ _ _ opt⟩
    | none =>
      rcases otherParam_cases d id (some (stract value.1 value.2 : Field 32).text)
        with hok | ⟨hno, -⟩
      · exact .inl hok
      · cases hno
  | none =>
    rw [storeParam]
    cases findOption id with
    | some opt => exact .inl ⟨d, rfl, rfl⟩
    | none => exact (otherParam_cases d id (o.qop start)).imp_right fun h => ⟨rfl, h.2⟩

/-- A value is stored in the field of its name, or it is not copied, or the
name is no field. -/
theorem storeParam_ok {o : Outside} {start : Text} {d d' : HttpAuth} {id : Text}
    {written : Option (Text × Int)} (h : storeParam o start d id written = .ok d') :
    (∃ opt v len, findOption id = some opt ∧ written = some (v, len) ∧ d' = d.store v len opt) ∨
    (written = none ∧ d' = d) ∨
    (findOption id = none ∧
      ∃ qop algorithm stale,
        d' = { d with qop := qop, algorithm := algorithm, stale := stale }) := by
  cases written with
  | none =>
    rw [storeParam] at h
    cases hopt : findOption id with
    | none =>
      rw [hopt] at h
      exact .inr (.inr ⟨rfl, otherParam_only h⟩)
    | some opt =>
      rw [hopt] at h
      exact .inr (.inl ⟨rfl, (Except.ok.inj h).symm⟩)
  | some w =>
    rw [storeParam] at h
    cases hopt : findOption id with
    | none =>
      rw [hopt] at h
      exact .inr (.inr ⟨rfl, otherParam_only h⟩)
    | some opt =>
      rw [hopt] at h
      exact .inl ⟨opt, w.1, w.2, rfl, rfl, (Except.ok.inj h).symm⟩

/-- A round that finds a parameter. -/
theorem parseRound_equals {o : Outside} {d : HttpAuth} {t eq : Text}
    (heq : strchr equals (skipSpaces t) = some eq) {round : Round}
    (h : parseRound o d t = .ok round) :
    ∃ e,
      storeParam o t d (stract (skipSpaces t) ((skipSpaces t).length - eq.length) : Field 16).text
        (paramValue (eq.drop 1)).1 = .ok e ∧
      round = .goesOn e ((paramValue (eq.drop 1)).2.map skipSeparators) := by
  rw [parseRound] at h
  simp only [heq] at h
  obtain ⟨e, he, hround⟩ := except_bind_eq_ok.mp h
  exact ⟨e, he, (Except.ok.inj hround).symm⟩

/-- A parameter is read, and `auth` moves behind it. The exception is a
quote that is not closed: there the loop is left, and the array that is not
written may hold no text. -/
theorem parseRound_param (o : Outside) (d : HttpAuth) {name : Text} (hname : equals ∉ name)
    (value : Text) :
    (∃ d', d'.type = d.type ∧ parseRound o d (name ++ equals :: value) =
      .ok (.goesOn d' ((paramValue value).2.map skipSeparators))) ∨
    ((paramValue value).2 = none ∧
      parseRound o d (name ++ equals :: value) = .error .outOfText) := by
  have hname' : equals ∉ skipSpaces name := fun h => hname ((List.dropWhile_suffix _).mem h)
  have hfind := (strchr_eq_some_iff equals _ _).mpr ⟨skipSpaces name, value, rfl, rfl, hname'⟩
  simp only [parseRound, skipSpaces_param, hfind, List.drop_one, List.tail_cons]
  rcases storeParam_cases o (name ++ equals :: value) d _ (paramValue value).1 with
    ⟨d', hstore, htype⟩ | ⟨hnone, hstore⟩
  · rw [hstore]
    exact .inl ⟨d', htype, rfl⟩
  · rw [hstore]
    exact .inr ⟨paramValue_none hnone, rfl⟩

theorem parseRound_no_equals (o : Outside) (d : HttpAuth) {t : Text} (ht : equals ∉ t) :
    (d.type = .HTTP_AUTH_BASIC → ∃ r d', parseRound o d t = .ok (.returned r d')) ∧
    (d.type ≠ .HTTP_AUTH_BASIC → parseRound o d t = .ok (.goesOn d (some (skipSpaces t)))) := by
  have ht' : equals ∉ skipSpaces t := fun h => ht ((List.dropWhile_suffix _).mem h)
  have hfind := (strchr_eq_none_iff equals _).mpr ht'
  simp only [parseRound, hfind]
  constructor
  · intro hbasic
    rw [if_pos hbasic]
    exact ⟨_, _, rfl⟩
  · intro hdigest
    rw [if_neg hdigest]
    rfl

/-! ## §3 The loop -/

section

variable (o : Outside)

/-- The loop ends from here, in some number of rounds. -/
def Ends (d : HttpAuth) (auth : Option Text) : Prop :=
  ∃ fuel, paramsLoop o fuel d auth ≠ .error .endless

/-- A round from one place of the header to the next. -/
def Next (c c' : HttpAuth × Text) : Prop :=
  c.2 ≠ [] ∧ parseRound o c.1 c.2 = .ok (.goesOn c'.1 (some c'.2))

/-- Further on in the text. -/
def Forward (t t' : Text) : Prop := t' <:+ t ∧ t'.length < t.length

/-- Each round that the loop comes to and that does not leave it moves
forward. -/
def Advances (d : HttpAuth) (auth : Text) : Prop :=
  ∀ c c', ReflTransGen (Next o) (d, auth) c → Next o c c' → Forward c.2 c'.2

variable {o} {d : HttpAuth}

theorem ends_none : Ends o d none := ⟨1, by simp [paramsLoop]⟩

theorem ends_nil : Ends o d (some []) := ⟨1, by simp [paramsLoop]⟩

theorem paramsLoop_goesOn {t : Text} (ht : t ≠ []) {d' : HttpAuth} {auth : Option Text}
    (h : parseRound o d t = .ok (.goesOn d' auth)) (fuel : Nat) :
    paramsLoop o (fuel + 1) d (some t) = paramsLoop o fuel d' auth := by
  obtain ⟨c, t, rfl⟩ := List.exists_cons_of_ne_nil ht
  rw [paramsLoop, h]
  rfl

theorem paramsLoop_returned {t : Text} (ht : t ≠ []) {r : Int} {d' : HttpAuth}
    (h : parseRound o d t = .ok (.returned r d')) (fuel : Nat) :
    paramsLoop o (fuel + 1) d (some t) = .ok (r, d') := by
  obtain ⟨c, t, rfl⟩ := List.exists_cons_of_ne_nil ht
  rw [paramsLoop, h]
  rfl

theorem ends_goesOn {t : Text} (ht : t ≠ []) {d' : HttpAuth} {auth : Option Text}
    (h : parseRound o d t = .ok (.goesOn d' auth)) : Ends o d (some t) ↔ Ends o d' auth := by
  constructor
  · rintro ⟨fuel, hends⟩
    cases fuel with
    | zero => exact absurd rfl hends
    | succ fuel => exact ⟨fuel, paramsLoop_goesOn ht h fuel ▸ hends⟩
  · rintro ⟨fuel, hends⟩
    exact ⟨fuel + 1, (paramsLoop_goesOn ht h fuel).symm ▸ hends⟩

theorem ends_error {t : Text} (h : parseRound o d t = .error .outOfText) : Ends o d (some t) := by
  cases t with
  | nil => exact ends_nil
  | cons c t => exact ⟨1, by simp [paramsLoop, h, bind, Except.bind]⟩

theorem ends_returned {t : Text} {r : Int} {d' : HttpAuth}
    (h : parseRound o d t = .ok (.returned r d')) : Ends o d (some t) := by
  cases t with
  | nil => exact ends_nil
  | cons c t => exact ⟨1, by simp [paramsLoop_returned (List.cons_ne_nil c t) h 0]⟩

/-- Where no round goes on there is nothing to show. -/
theorem advances_last {t : Text} (h : ∀ c', ¬ Next o (d, t) c') : Advances o d t := by
  intro c c' hc hnext
  rcases ReflTransGen.cases_head hc with rfl | ⟨b, hb, -⟩
  · exact absurd hnext (h c')
  · exact absurd hb (h b)

theorem advances_next {t t' : Text} {d' : HttpAuth} (h : Next o (d, t) (d', t')) :
    Advances o d t ↔ Forward t t' ∧ Advances o d' t' := by
  constructor
  · intro hall
    exact ⟨hall _ _ .refl h, fun c c' hc => hall c c' (.head h hc)⟩
  · rintro ⟨hforward, hrest⟩ c c' hc hnext
    have hone : ∀ b, Next o (d, t) b → b = (d', t') := by
      rintro ⟨e, s⟩ hb
      have heq := hb.2.symm.trans h.2
      cases heq
      rfl
    rcases ReflTransGen.cases_head hc with rfl | ⟨b, hb, hc⟩
    · obtain rfl := hone c' hnext
      exact hforward
    · obtain rfl := hone b hb
      exact hrest c c' hc hnext

/-- A text that is not blank and has no equals sign is not left. -/
theorem not_ends_of_stuck (hd : d.type ≠ .HTTP_AUTH_BASIC) {t : Text} (ht : equals ∉ t)
    (hblank : skipSpaces t ≠ []) : ¬ Ends o d (some t) := by
  have hne : t ≠ [] := by
    rintro rfl
    exact hblank rfl
  have hround := (parseRound_no_equals o d ht).2 hd
  rw [ends_goesOn hne hround]
  rintro ⟨fuel, hends⟩
  have ht' : equals ∉ skipSpaces t := fun h => ht ((List.dropWhile_suffix _).mem h)
  have hagain := (parseRound_no_equals o d ht').2 hd
  rw [skipSpaces_skipSpaces] at hagain
  induction fuel with
  | zero => exact hends rfl
  | succ fuel ih =>
    rw [paramsLoop_goesOn hblank hagain] at hends
    exact ih hends

theorem not_advances_of_stuck (hd : d.type ≠ .HTTP_AUTH_BASIC) {t : Text} (ht : equals ∉ t)
    (hblank : skipSpaces t ≠ []) : ¬ Advances o d t := by
  have hne : t ≠ [] := by
    rintro rfl
    exact hblank rfl
  have hround := (parseRound_no_equals o d ht).2 hd
  have ht' : equals ∉ skipSpaces t := fun h => ht ((List.dropWhile_suffix _).mem h)
  have hagain := (parseRound_no_equals o d ht').2 hd
  rw [skipSpaces_skipSpaces] at hagain
  intro hall
  have hfirst : Next o (d, t) (d, skipSpaces t) := ⟨hne, hround⟩
  have hsame : Next o (d, skipSpaces t) (d, skipSpaces t) := ⟨hblank, hagain⟩
  exact Nat.lt_irrefl _ (hall _ _ (.single hfirst) hsame).2

theorem not_params_of_stuck {t : Text} (ht : equals ∉ t) (hblank : skipSpaces t ≠ []) :
    ¬ Params t := by
  intro h
  cases h with
  | blank h => exact hblank ((skipSpaces_eq_nil_iff t).mpr h)
  | last => simp at ht
  | param => simp at ht

/-- Behind a parameter the text is shorter. -/
theorem forward_param (name : Text) {value rest : Text} (h : (paramValue value).2 = some rest) :
    Forward (name ++ equals :: value) (skipSeparators rest) := by
  have hvalue := paramValue_spec value
  rw [h] at hvalue
  have hsuffix : skipSeparators rest <:+ value := (List.dropWhile_suffix _).trans hvalue.suffix
  have hle := hsuffix.length_le
  constructor
  · exact hsuffix.trans ⟨name ++ [equals], by simp⟩
  · rw [List.length_append, List.length_cons]
    omega

theorem basic_no_equals (hd : d.type = .HTTP_AUTH_BASIC) {t : Text} (ht : equals ∉ t) :
    Ends o d (some t) ∧ Advances o d t := by
  obtain ⟨r, d', hround⟩ := (parseRound_no_equals o d ht).1 hd
  refine ⟨ends_returned hround, advances_last fun c' hnext => ?_⟩
  have heq := hround.symm.trans hnext.2
  cases heq

theorem blank_ends {t : Text} (hblank : ∀ c ∈ t, c = space) :
    Ends o d (some t) ∧ Advances o d t := by
  by_cases hnil : t = []
  · subst hnil
    exact ⟨ends_nil, advances_last fun c' hnext => hnext.1 rfl⟩
  have ht : equals ∉ t := fun h => absurd (hblank _ h) (by decide)
  by_cases hd : d.type = .HTTP_AUTH_BASIC
  · exact basic_no_equals hd ht
  · have hround := (parseRound_no_equals o d ht).2 hd
    rw [(skipSpaces_eq_nil_iff t).mpr hblank] at hround
    have hnext : Next o (d, t) (d, []) := ⟨hnil, hround⟩
    have hforward : Forward t [] := ⟨List.nil_suffix, List.length_pos_iff.mpr hnil⟩
    exact ⟨(ends_goesOn hnil hround).mpr ends_nil,
      (advances_next hnext).mpr ⟨hforward, advances_last fun c' h => h.1 rfl⟩⟩

/-- A round that reads the last parameter leaves the loop. -/
theorem last_ends {name : Text} (hname : equals ∉ name) {value : Text}
    (h : (paramValue value).2 = none) :
    Ends o d (some (name ++ equals :: value)) ∧ Advances o d (name ++ equals :: value) := by
  have hne : name ++ equals :: value ≠ [] := by simp
  rcases parseRound_param o d hname value with ⟨d', -, hround⟩ | ⟨-, hround⟩
  · rw [h] at hround
    refine ⟨(ends_goesOn hne hround).mpr ends_none, advances_last fun c' hnext => ?_⟩
    have heq := hround.symm.trans hnext.2
    cases heq
  · refine ⟨ends_error hround, advances_last fun c' hnext => ?_⟩
    have heq := hround.symm.trans hnext.2
    cases heq

/-- What the loop does from a place of the header on: it ends, and it moves
forward in each round, exactly if the scheme is basic or there are
parameters. -/
theorem loop_iff (t : Text) (d : HttpAuth) :
    (Ends o d (some t) ↔ d.type = .HTTP_AUTH_BASIC ∨ Params t) ∧
    (Advances o d t ↔ d.type = .HTTP_AUTH_BASIC ∨ Params t) := by
  induction hn : t.length using Nat.strong_induction_on generalizing t d with
  | h n ih =>
    rcases text_cases t with hblank | ⟨ht, hstuck⟩ | ⟨name, value, hname, rfl⟩
    · obtain ⟨hends, hadvances⟩ := blank_ends (o := o) (d := d) hblank
      exact ⟨iff_of_true hends (.inr (.blank hblank)), iff_of_true hadvances (.inr (.blank hblank))⟩
    · by_cases hd : d.type = .HTTP_AUTH_BASIC
      · obtain ⟨hends, hadvances⟩ := basic_no_equals (o := o) hd ht
        exact ⟨iff_of_true hends (.inl hd), iff_of_true hadvances (.inl hd)⟩
      · have hno : ¬ (d.type = .HTTP_AUTH_BASIC ∨ Params t) :=
          not_or.mpr ⟨hd, not_params_of_stuck ht hstuck⟩
        exact ⟨iff_of_false (not_ends_of_stuck hd ht hstuck) hno,
          iff_of_false (not_advances_of_stuck hd ht hstuck) hno⟩
    · have hparams := params_param_iff hname value
      cases hvalue : (paramValue value).2 with
      | none =>
        obtain ⟨hends, hadvances⟩ := last_ends (o := o) (d := d) hname hvalue
        have hyes : Params (name ++ equals :: value) := hparams.mpr (by simp [hvalue])
        exact ⟨iff_of_true hends (.inr hyes), iff_of_true hadvances (.inr hyes)⟩
      | some rest =>
        have hforward := forward_param name hvalue
        have hrest : Params (name ++ equals :: value) ↔ Params (skipSeparators rest) := by
          simpa [hvalue] using hparams
        have hne : name ++ equals :: value ≠ [] := by simp
        rcases parseRound_param o d hname value with ⟨d', htype, hround⟩ | ⟨hno, -⟩
        · rw [hvalue] at hround
          have hnext : Next o (d, name ++ equals :: value) (d', skipSeparators rest) :=
            ⟨hne, hround⟩
          obtain ⟨hends, hadvances⟩ := ih _ (hn ▸ hforward.2) (skipSeparators rest) d' rfl
          rw [htype] at hends hadvances
          rw [hrest]
          exact ⟨(ends_goesOn hne hround).trans hends,
            (advances_next hnext).trans ((and_iff_right hforward).trans hadvances)⟩
        · rw [hvalue] at hno
          cases hno

end

/-! ## §4 The function -/

/-- The rounds of the loop move forward, for a header value with a scheme. -/
def RoundsAdvance (o : Outside) (d : HttpAuth) (auth : Text) : Prop :=
  ∀ start ∈ scheme (httpAuthEmpty d) auth, Advances o start.1 start.2

/-- Only the digest scheme asks for parameters. -/
theorem scheme_cases (d : HttpAuth) (auth : Text) :
    (scheme d auth = none ∧ WellFormed auth) ∨
      ∃ start, scheme d auth = some start ∧
        (start.1.type = .HTTP_AUTH_BASIC ∨ Params start.2 ↔ WellFormed auth) := by
  unfold scheme WellFormed
  by_cases hdigest : Map.strncaseEq (skipSpaces auth) digest 7 = true
  · right
    simp [hdigest]
  · by_cases hbasic : Map.strncaseEq (skipSpaces auth) basic 6 = true
    · right
      simp [hdigest, hbasic]
    · left
      simp [hdigest, hbasic]

/-- The parser ends, and its rounds move forward, exactly for the header
values that are not of the digest scheme or have only parameters behind it. -/
theorem httpAuthParse_ends_iff (o : Outside) (d : HttpAuth) (auth : Text) :
    ((∃ fuel, httpAuthParse o fuel d auth ≠ .error .endless) ↔ WellFormed auth) ∧
    (RoundsAdvance o d auth ↔ WellFormed auth) := by
  unfold httpAuthParse RoundsAdvance
  rcases scheme_cases (httpAuthEmpty d) auth with ⟨hnone, hwell⟩ | ⟨⟨d', t⟩, hsome, hwell⟩
  · rw [hnone]
    exact ⟨iff_of_true ⟨0, by simp⟩ hwell, iff_of_true (by simp) hwell⟩
  · obtain ⟨hends, hadvances⟩ := loop_iff (o := o) t d'
    rw [hsome]
    exact ⟨hends.trans hwell, by simpa using hadvances.trans hwell⟩

/-- A challenge with a word in place of its parameters. -/
theorem httpAuthParse_stuck :
    ¬ ∀ (o : Outside) (d : HttpAuth) (auth : Text),
      ∃ fuel, httpAuthParse o fuel d auth ≠ .error .endless := by
  intro h
  have hends := h ⟨fun _ => some [], fun _ _ => [], 0, 0, 0, 0⟩ default (digest ++ [ascii 'x'])
  have hscheme : scheme (httpAuthEmpty default) (digest ++ [ascii 'x']) =
      some ({ httpAuthEmpty default with type := .HTTP_AUTH_DIGEST }, [ascii 'x']) := by decide
  unfold httpAuthParse at hends
  rw [hscheme] at hends
  exact not_ends_of_stuck (by decide) (by decide) (by decide) hends

end Nanio.Auth

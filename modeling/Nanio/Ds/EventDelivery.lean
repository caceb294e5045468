/-
Nanio.Ds.EventDelivery — every event that the kernel reports is delivered,
once, and to nobody else.

The arrays of `io_ds_poll` hold the descriptors that ask for events, so a
place in the array is not a place in the list, and the second loop stops
when it has counted down the number `poll` returned. With handlers that
leave the list alone the first loop is `snapshot`, a walk over the list as
it is, and the second serves exactly the entries of the snapshot that have
`revents` (`dispatch_play`). A descriptor that was closed before is freed
after its event, which moves no other entry.
-/
import Nanio.Ds.DsRules

namespace Nanio.Ds

open Nanio.Lib

/-! ## §1 Handlers that leave the list alone -/

/-- The same descriptors, open or closed as before; their events may differ. -/
structure SameList (w w' : World) : Prop where
  ioDs : w'.ioDs = w.ioDs
  next : w'.next = w.next
  length : w'.length = w.length
  fields : ∀ d, (w'.mem d).map (fun v => (v.vmt, v.fd)) = (w.mem d).map fun v => (v.vmt, v.fd)

/-- No handler registers, closes or frees a descriptor. -/
def Passive (owner : Owner World Method) : Prop := ∀ ms m w, SameList w (owner ms m w).2

theorem SameList.refl (w : World) : SameList w w := ⟨rfl, rfl, rfl, fun _ => rfl⟩

theorem SameList.trans {w₁ w₂ w₃ : World} (h : SameList w₁ w₂) (h' : SameList w₂ w₃) :
    SameList w₁ w₃ where
  ioDs := h'.ioDs.trans h.ioDs
  next := h'.next.trans h.next
  length := h'.length.trans h.length
  fields d := (h'.fields d).trans (h.fields d)

theorem SameList.isSome {w w' : World} (h : SameList w w') (d : DId) :
    (w'.mem d).isSome = (w.mem d).isSome := by
  simpa using congrArg Option.isSome (h.fields d)

theorem SameList.listed {w w' : World} (h : SameList w w') {list : List DId} (hl : Listed w list) :
    Listed w' list where
  chain := by rw [h.next, h.ioDs]; exact hl.chain
  length := by rw [h.length]; exact hl.length
  live d := by rw [h.isSome d]; exact hl.live d

theorem SameList.release {w w' : World} (h : SameList w w') (d : DId) :
    SameList (w.release d) (w'.release d) where
  ioDs := h.ioDs
  next := h.next
  length := h.length
  fields x := by
    by_cases hx : x = d
    · simp [World.release, hx]
    · simp [World.release, hx, h.fields x]

section Play

variable (ans : ∀ q, Answer q) {owner : Owner World Method} {w : World} {list : List DId}

theorem readD_play {d : DId} {v : IoD} (hv : w.mem d = some v) (ms : List Method) :
    (readD d).play ans owner w ms = .ok (v, w, ms) := by
  simp [readD, hv, Except.bind]

/-! ## §2 The walk -/

/-- The world and the record after `idle` of `d`, if it has one. -/
def afterIdle (owner : Owner World Method) (d : DId) (taken : List PollFd) (w : World)
    (ms : List Method) : World × List Method :=
  match w.mem d with
  | some v =>
    if v.vmt.idle then ((owner ms (.idle d taken) w).2, ms ++ [.idle d taken]) else (w, ms)
  | none => (w, ms)

/-- The entry of a descriptor, if it asks for events. -/
def entry (w : World) (d : DId) : List PollFd :=
  match w.mem d with
  | some v => if v.events = 0 then [] else [⟨d, v.fd, v.events.truncate 16⟩]
  | none => []

/-- The entries of the descriptors that ask for events when the walk looks
at them, which is when their own `idle` and those before it have run. -/
def snapshot (owner : Owner World Method) : List DId → World → List Method → List PollFd →
    List PollFd × World × List Method
  | [], w, ms, taken => (taken, w, ms)
  | d :: rest, w, ms, taken =>
    snapshot owner rest (afterIdle owner d taken w ms).1 (afterIdle owner d taken w ms).2
      (taken ++ entry (afterIdle owner d taken w ms).1 d)

theorem afterIdle_same (hp : Passive owner) (d : DId) (taken : List PollFd) (ms : List Method) :
    SameList w (afterIdle owner d taken w ms).1 := by
  unfold afterIdle
  cases w.mem d with
  | none => exact .refl w
  | some v =>
    by_cases hidle : v.vmt.idle = true
    · simpa [hidle] using hp ms (.idle d taken) w
    · simpa [hidle] using .refl w

theorem callIdle_play {d : DId} {v : IoD} (hv : w.mem d = some v) (taken : List PollFd)
    (ms : List Method) :
    (callIdle d taken).play ans owner w ms =
      .ok ((), (afterIdle owner d taken w ms).1, (afterIdle owner d taken w ms).2) := by
  rw [callIdle, play_bind_ok (readD_play ans hv ms)]
  by_cases hidle : v.vmt.idle = true <;> simp [afterIdle, hv, hidle, Except.bind]

/-- The first loop over the descriptors `rest` of the list. -/
theorem idleLoop_play (hp : Passive owner) (hl : Listed w list) {len fuel : Nat} {pos : Option DId}
    {rest : List DId} (hchain : Chain w.next pos rest) (hin : ∀ d ∈ rest, d ∈ list)
    (hfuel : rest.length ≤ fuel) (taken : List PollFd) (hroom : taken.length + rest.length ≤ len)
    (ms : List Method) :
    (idleLoop len fuel pos taken).play ans owner w ms = .ok (snapshot owner rest w ms taken) := by
  induction rest generalizing w fuel pos taken ms with
  | nil =>
    obtain rfl : pos = none := hchain
    cases fuel <;> simp [idleLoop, snapshot]
  | cons d rest ih =>
    obtain ⟨rfl, hrest⟩ := (chain_cons _ _ _ _).mp hchain
    obtain ⟨fuel, rfl⟩ : ∃ n, fuel = n + 1 := ⟨fuel - 1, by simp at hfuel; omega⟩
    simp only [List.length_cons] at hfuel hroom
    have hd : d ∈ list := hin d List.mem_cons_self
    obtain ⟨v, hv⟩ := hl.get hd
    have hsame : SameList w (afterIdle owner d taken w ms).1 := afterIdle_same hp d taken ms
    have hl' := hsame.listed hl
    obtain ⟨v', hv'⟩ := hl'.get hd
    have hnext : Chain (afterIdle owner d taken w ms).1.next
        ((afterIdle owner d taken w ms).1.next d) rest := by
      rw [hsame.next]
      exact hrest
    have hin' : ∀ x ∈ rest, x ∈ list := fun x hx => hin x (List.mem_cons_of_mem d hx)
    rw [idleLoop, play_bind_ok (callIdle_play ans hv taken ms), play_bind_ok (readD_play ans hv' _),
      play_bind_ok play_read, snapshot]
    by_cases hev : v'.events = 0
    · have hentry : entry (afterIdle owner d taken w ms).1 d = [] := by simp [entry, hv', hev]
      rw [if_pos hev, hentry, List.append_nil]
      exact ih hl' hnext hin' (by omega) taken (by omega) _
    · have hentry : entry (afterIdle owner d taken w ms).1 d =
          [⟨d, v'.fd, v'.events.truncate 16⟩] := by simp only [entry, hv', if_neg hev]
      rw [if_neg hev, if_neg (by omega), hentry]
      exact ih hl' hnext hin' (by omega) _ (by simp; omega) _

/-- The snapshot, in the order of the list. -/
theorem snapshot_sublist (owner : Owner World Method) (rest : List DId) (w : World)
    (ms : List Method) (taken : List PollFd) :
    ∃ more, (snapshot owner rest w ms taken).1 = taken ++ more ∧ (more.map (·.d)).Sublist rest := by
  induction rest generalizing w ms taken with
  | nil => exact ⟨[], by simp [snapshot], by simp⟩
  | cons d rest ih =>
    obtain ⟨more, hmore, hsub⟩ := ih (afterIdle owner d taken w ms).1
      (afterIdle owner d taken w ms).2 (taken ++ entry (afterIdle owner d taken w ms).1 d)
    refine ⟨entry (afterIdle owner d taken w ms).1 d ++ more, by simp [snapshot, hmore], ?_⟩
    have hentry : ((entry (afterIdle owner d taken w ms).1 d).map (·.d)).Sublist [d] := by
      unfold entry
      split
      · split <;> simp
      · simp
    rw [List.map_append]
    exact hentry.append hsub

theorem snapshot_same (hp : Passive owner) (rest : List DId) (w : World) (ms : List Method)
    (taken : List PollFd) : SameList w (snapshot owner rest w ms taken).2.1 := by
  induction rest generalizing w ms taken with
  | nil => exact .refl w
  | cons d rest ih => exact (afterIdle_same hp d taken ms).trans (ih _ _ _)

/-! ## §3 The second loop -/

/-- The descriptor and the `revents` of an `event`. -/
def delivered : Method → Option (DId × BitVec 16)
  | .event d revents _ => some (d, revents)
  | _ => none

/-- The walk calls no `event`. -/
theorem snapshot_record (rest : List DId) (w : World) (ms : List Method) (taken : List PollFd) :
    (snapshot owner rest w ms taken).2.2.filterMap delivered = ms.filterMap delivered := by
  induction rest generalizing w ms taken with
  | nil => rfl
  | cons d rest ih =>
    rw [snapshot, ih]
    unfold afterIdle
    split
    · split <;> simp [delivered]
    · rfl

theorem ioDFree_play (hp : Passive owner) (hl : Listed w list) {d : DId} (hd : d ∈ list)
    (ms : List Method) :
    ∃ w' ms', (ioDFree d).play ans owner w ms = .ok ((), w', ms ++ ms') ∧
      Listed w' (list.erase d) ∧ ms'.filterMap delivered = [] := by
  obtain ⟨t, hfind, -, hgone⟩ := hl.remove hd
  obtain ⟨v, hv⟩ := hl.get hd
  have hv' : (w.unlink d t).mem d = some v := hv
  rw [ioDFree, play_bind_ok play_read]
  simp only [hfind]
  rw [play_bind_ok (play_modify _), ioDRelease, play_bind_ok (readD_play ans hv' ms)]
  by_cases hmethod : v.vmt.free = true
  · have hsame := hp ms (.free d) (w.unlink d t)
    refine ⟨(owner ms (.free d) (w.unlink d t)).2.release d, [.free d], ?_,
      (hsame.release d).listed hgone, rfl⟩
    simp [hmethod, Except.bind]
  · refine ⟨(w.unlink d t).release d, [], ?_, hgone, rfl⟩
    simp [hmethod]

/-- An entry with `revents`: `event` is called for it, and the loop goes on
with the entries behind it in a list that has lost its descriptor at most. -/
theorem dispatch_cons_play (hp : Passive owner) (hl : Listed w list) {x : DId × BitVec 16}
    (hx : x.1 ∈ list) (hr : x.2 ≠ 0) (rest : List (DId × BitVec 16)) {ret : Nat} (h0 : ret ≠ 0)
    (ms : List Method) :
    ∃ w₁ list₁ ms₁, (dispatch (x :: rest) ret).play ans owner w ms =
        (dispatch rest (ret - 1)).play ans owner w₁ (ms ++ .event x.1 x.2 rest :: ms₁) ∧
      Listed w₁ list₁ ∧ (∀ d ∈ list, d ≠ x.1 → d ∈ list₁) ∧ ms₁.filterMap delivered = [] := by
  obtain ⟨v, hv⟩ := hl.get hx
  have hl₁ := (hp ms (.event x.1 x.2 rest) w).listed hl
  obtain ⟨v₁, hv₁⟩ := hl₁.get hx
  rw [dispatch, if_neg h0, if_neg hr, play_bind_ok (readD_play ans hv ms),
    play_bind_ok (play_invoke _), play_bind_ok (readD_play ans hv₁ _)]
  by_cases hclosed : v₁.fd = -1
  · obtain ⟨w₂, ms₂, hfree, hl₂, hms₂⟩ :=
      ioDFree_play ans hp hl₁ hx (ms ++ [.event x.1 x.2 rest])
    refine ⟨w₂, list.erase x.1, ms₂, ?_, hl₂, ?_, hms₂⟩
    · rw [if_pos hclosed, play_bind_ok hfree, List.append_assoc]
      rfl
    · exact fun d hd hne => (List.mem_erase_of_ne hne).mpr hd
  · refine ⟨_, list, [], ?_, hl₁, fun d hd _ => hd, rfl⟩
    rw [if_neg hclosed]

/-- The second loop calls `event` for the entries that have `revents`. -/
theorem dispatch_play (hp : Passive owner) (hl : Listed w list) {entries : List (DId × BitVec 16)}
    (hin : ∀ x ∈ entries, x.1 ∈ list) (hnodup : (entries.map (·.1)).Nodup) {ret : Nat}
    (hret : ret = entries.countP (·.2 ≠ 0)) (ms : List Method) :
    ∃ w' ms', (dispatch entries ret).play ans owner w ms = .ok ((), w', ms ++ ms') ∧
      ms'.filterMap delivered = entries.filter (·.2 ≠ 0) := by
  induction entries generalizing w list ret ms with
  | nil => exact ⟨w, [], by simp [dispatch], rfl⟩
  | cons x rest ih =>
    have hin' : ∀ y ∈ rest, y.1 ∈ list := fun y hy => hin y (List.mem_cons_of_mem x hy)
    rw [List.map_cons, List.nodup_cons] at hnodup
    obtain ⟨hnot, hnodup'⟩ := hnodup
    by_cases hr : x.2 = 0
    · -- an entry without `revents` is passed over, or the countdown has ended
      rw [List.countP_cons_of_neg (by simp [hr])] at hret
      obtain ⟨w', ms', hplay, hms'⟩ := ih hl hin' hnodup' hret ms
      by_cases h0 : ret = 0
      · refine ⟨w, [], by simp [dispatch, h0], ?_⟩
        have hzero : rest.countP (·.2 ≠ 0) = 0 := hret.symm.trans h0
        rw [List.countP_eq_length_filter, List.length_eq_zero_iff] at hzero
        rw [List.filter_cons_of_neg (by simp [hr]), hzero]
        rfl
      · refine ⟨w', ms', ?_, by rw [hms', List.filter_cons_of_neg (by simp [hr])]⟩
        rw [dispatch, if_neg h0, if_pos hr]
        exact hplay
    · rw [List.countP_cons_of_pos (by simpa using hr)] at hret
      have hpred : ret - 1 = rest.countP (·.2 ≠ 0) := by omega
      obtain ⟨w₁, list₁, ms₁, hone, hl₁, hkept, hms₁⟩ :=
        dispatch_cons_play ans hp hl (hin x List.mem_cons_self) hr rest (by omega : ret ≠ 0) ms
      have hin₁ : ∀ y ∈ rest, y.1 ∈ list₁ := by
        intro y hy
        have hne : y.1 ≠ x.1 := fun e => hnot (e ▸ List.mem_map_of_mem hy)
        exact hkept y.1 (hin' y hy) hne
      obtain ⟨w', ms', hplay, hms'⟩ := ih hl₁ hin₁ hnodup' hpred (ms ++ .event x.1 x.2 rest :: ms₁)
      refine ⟨w', .event x.1 x.2 rest :: (ms₁ ++ ms'), ?_, ?_⟩
      · rw [hone, hplay]
        simp
      · rw [List.filter_cons_of_pos (by simpa using hr)]
        simp [delivered, hms₁, hms']

end Play

/-! ## §4 The poll -/

/-- What the walk over the whole list puts into the arrays. -/
def polled (owner : Owner World Method) (list : List DId) (w : World) : List PollFd :=
  (snapshot owner list w [] []).1

/-- With handlers that leave the list alone and a kernel that counts its
`revents`, the calls of `event` are one for each polled descriptor with
`revents`, with these, and no others. No descriptor is polled twice. -/
theorem ioDsPoll_delivers (ans : ∀ q, Answer q) (owner : Owner World Method) (w : World)
    (list : List DId) (timeout : Int) (ret : Nat) (revents : List (BitVec 16)) (hl : Listed w list)
    (hp : Passive owner) (hans : ans (.poll (polled owner list w) timeout) = .ok (ret, revents))
    (hlen : revents.length = (polled owner list w).length) (hret : ret = revents.countP (· ≠ 0)) :
    ((polled owner list w).map (·.d)).Nodup ∧
    ∃ v w' ms, (ioDsPoll timeout).play ans owner w [] = .ok (v, w', ms) ∧
      ms.filterMap delivered =
        (((polled owner list w).map (·.d)).zip revents).filter (·.2 ≠ 0) := by
  obtain ⟨more, hmore, hsub⟩ := snapshot_sublist owner list w [] []
  rw [List.nil_append] at hmore
  have hsub' : ((polled owner list w).map (·.d)).Sublist list := by
    rw [polled, hmore]
    exact hsub
  have hnodup : ((polled owner list w).map (·.d)).Nodup := hl.chain.nodup.sublist hsub'
  refine ⟨hnodup, ?_⟩
  have hwalk : (idleLoop w.length w.length w.ioDs []).play ans owner w [] =
      .ok (polled owner list w, (snapshot owner list w [] []).2) :=
    idleLoop_play ans hp hl hl.chain (fun _ h => h) (by rw [hl.length]) [] (by simp [hl.length]) []
  have hrecord : (snapshot owner list w [] []).2.2.filterMap delivered = [] :=
    snapshot_record list w [] []
  have hl' := (snapshot_same hp list w [] []).listed hl
  rw [ioDsPoll, play_bind_ok play_read, play_bind_ok hwalk]
  by_cases hnone : timeout < 0 ∧ polled owner list w = []
  · refine ⟨0, (snapshot owner list w [] []).2.1, (snapshot owner list w [] []).2.2, ?_, ?_⟩
    · rw [if_pos hnone, play_pure]
    · rw [hrecord, hnone.2]
      rfl
  · have hfst : (((polled owner list w).map (·.d)).zip revents).map (·.1) =
        (polled owner list w).map (·.d) := List.map_fst_zip (by simp [hlen])
    have hsnd : (((polled owner list w).map (·.d)).zip revents).map (·.2) = revents :=
      List.map_snd_zip (by simp [hlen])
    have hcount : ret = (((polled owner list w).map (·.d)).zip revents).countP (·.2 ≠ 0) := by
      rw [hret]
      conv_lhs => rw [← hsnd, List.countP_map]
      rfl
    have hin : ∀ x ∈ ((polled owner list w).map (·.d)).zip revents, x.1 ∈ list :=
      fun x hx => hsub'.subset (List.of_mem_zip hx).1
    obtain ⟨w', ms', hplay, hms'⟩ :=
      dispatch_play ans hp hl' hin (by rw [hfst]; exact hnodup) hcount
      (snapshot owner list w [] []).2.2
    refine ⟨(polled owner list w).length, w', (snapshot owner list w [] []).2.2 ++ ms', ?_, ?_⟩
    · rw [if_neg hnone, play_bind_ok (play_query _), hans]
      simp only [ne_eq, hlen, not_true_eq_false, if_false]
      rw [play_bind_ok hplay]
      rfl
    · rw [List.filterMap_append, hrecord, hms', List.nil_append]

/-- While `idle` leaves the events alone, the arrays hold the descriptors
that ask for events now. -/
theorem polled_eq {owner : Owner World Method} (list : List DId) (w : World)
    (hquiet : ∀ ms d taken, (owner ms (.idle d taken) w).2 = w) :
    polled owner list w = list.flatMap (entry w) := by
  have hafter : ∀ d taken ms, (afterIdle owner d taken w ms).1 = w := by
    intro d taken ms
    unfold afterIdle
    split
    · split <;> simp [hquiet]
    · rfl
  have key : ∀ ms taken, (snapshot owner list w ms taken).1 = taken ++ list.flatMap (entry w) := by
    induction list with
    | nil => simp [snapshot]
    | cons d rest ih =>
      intro ms taken
      rw [snapshot, hafter, ih]
      simp
  exact (key [] []).trans (List.nil_append _)

/-- Three descriptors: 3 is closed, 2 asks for nothing. -/
def threeDescriptors : World :=
  ((World.empty.init 1 5 1 ⟨true, false⟩).init 2 6 0 ⟨false, false⟩).init 3 (-1) 4 ⟨false, true⟩

theorem listed_threeDescriptors : Listed threeDescriptors [3, 2, 1] :=
  ((listed_empty.init rfl 5 1 ⟨true, false⟩).init rfl 6 0 ⟨false, false⟩).init
    rfl (-1) 4 ⟨false, true⟩

/-- An owner whose methods return at once. -/
def returnsAtOnce : Owner World Method := fun _ _ w => (0, w)

theorem passive_returnsAtOnce : Passive returnsAtOnce := fun _ _ w => .refl w

theorem ioDsPoll_delivers_three :
    polled returnsAtOnce [3, 2, 1] threeDescriptors = [⟨3, -1, 4⟩, ⟨1, 5, 1⟩] ∧
    ((polled returnsAtOnce [3, 2, 1] threeDescriptors).map (·.d)).Nodup ∧
    ∃ v w' ms, (ioDsPoll 0).play (fun _ => .ok (2, [4, 1])) returnsAtOnce threeDescriptors [] =
        .ok (v, w', ms) ∧
      ms.filterMap delivered =
        (((polled returnsAtOnce [3, 2, 1] threeDescriptors).map (·.d)).zip [4, 1]).filter
          (·.2 ≠ 0) := by
  have hpolled : polled returnsAtOnce [3, 2, 1] threeDescriptors = [⟨3, -1, 4⟩, ⟨1, 5, 1⟩] := by
    rw [polled_eq _ _ fun _ _ _ => rfl]
    decide
  exact ⟨hpolled, ioDsPoll_delivers (fun _ => .ok (2, [4, 1])) returnsAtOnce threeDescriptors
    [3, 2, 1] 0 2 [4, 1] listed_threeDescriptors passive_returnsAtOnce rfl (by rw [hpolled]; rfl)
    (by decide)⟩

end Nanio.Ds

import LiveMarkup.Proofs.Run.Building
import LiveMarkup.Proofs.Run.Lines
import LiveMarkup.Tasks.Command

/-!
# Channels that carry values

`Posted` says how far the channels of values have come: what has been sent lies in its channel until
it is shown, what has not been sent can be sent, and the receivers inside a value that comes later
are there to be taken when it comes.  Sending a value wakes the task that waits for it
(`Posted.exists_send`), and a value that has come opens the channels inside it (`Posted.openBody`).
-/

namespace LiveMarkup

variable {channels : String → ℕ} {all : List (String × Staged)} {D : List String}
  {values values' rest : List Staged} {P Q I : List Late} {t t' : Tasks} {s : Scheduler}
  {x y : String × Staged} {c : String} {u v : Staged} {j : Late}

/-! ### The channels in a value -/

namespace Staged

theorem parts_of_channel (h : u.channel? = some c) : u.parts = (c, u.body) :: u.body.parts := by
  cases u with
  | sent d v =>
    obtain rfl := Option.some.inj h
    rfl
  | empty | text s | node name | list items | soon v => cases h

theorem mem_parts_of_mem_body (h : x ∈ u.body.parts) : x ∈ u.parts := by
  cases u with
  | sent d v => exact List.mem_cons_of_mem _ h
  | empty | text s | node name | list items | soon v => exact h

theorem mem_partsAll (hu : u ∈ values) (hx : x ∈ u.parts) : x ∈ partsAll values := by
  rw [partsAll_eq_flatMap]
  exact List.mem_flatMap.2 ⟨u, hu, hx⟩

theorem mem_partsAll_of_channel (hu : u ∈ values) (h : u.channel? = some c) :
    (c, u.body) ∈ partsAll values :=
  mem_partsAll hu (parts_of_channel h ▸ List.mem_cons_self)

theorem mem_parts_of_mem_pending (hu : u ∈ v.pending) (hx : x ∈ u.parts) : x ∈ v.parts := by
  rw [← partsAll_pending]
  exact mem_partsAll hu hx

theorem sublist_parts_body (u : Staged) : u.body.parts.Sublist u.parts := by
  cases u with
  | sent d v => exact List.sublist_cons_self _ _
  | empty | text s | node name | list items | soon v => exact .refl _

/-- A channel of a value that comes later is the one through which it comes, or inside it. -/
theorem mem_parts_cases (u : Staged) (hu : u.IsLater) (hx : x ∈ u.parts) :
    u.channel? = some x.1 ∨ x ∈ u.body.parts := by
  cases u with
  | sent d v =>
    rcases List.mem_cons.1 hx with rfl | hx
    · exact Or.inl rfl
    · exact Or.inr hx
  | soon v => exact Or.inr hx
  | empty | text s | node name | list items => exact hu.elim

theorem sublist_filterMap_channel (vs : List Staged) :
    (vs.filterMap channel?).Sublist ((partsAll vs).map Prod.fst) := by
  induction vs with
  | nil => exact .refl _
  | cons v vs ih =>
    rw [partsAll, List.map_append, List.filterMap_cons]
    cases hc : v.channel? with
    | none => exact ih.trans (List.sublist_append_right _ _)
    | some c =>
      rw [parts_of_channel hc, List.map_cons, List.cons_append]
      exact (ih.trans (List.sublist_append_right _ _)).cons_cons c

/-- The channels whose receivers are taken are channels of the value. -/
theorem sublist_held (v : Staged) : v.held.Sublist (v.parts.map Prod.fst) := by
  rw [← partsAll_pending]
  exact sublist_filterMap_channel v.pending

/-- The channels inside values that come later are not taken with them. -/
theorem not_mem_filterMap_channel (hd : ((partsAll values).map Prod.fst).Nodup) (hu : u ∈ values)
    (hx : x ∈ u.body.parts) : x.1 ∉ values.filterMap channel? := by
  intro hin
  obtain ⟨v, hv, hc⟩ := List.mem_filterMap.1 hin
  induction values with
  | nil => cases hu
  | cons w values ih =>
    rw [partsAll, List.map_append, List.nodup_append] at hd
    have hpart : x.1 ∈ u.parts.map Prod.fst := List.mem_map_of_mem (mem_parts_of_mem_body hx)
    have hown : x.1 ∈ v.parts.map Prod.fst := by
      rw [parts_of_channel hc]
      exact List.mem_cons_self
    have hall : ∀ {w : Staged}, w ∈ values → x.1 ∈ w.parts.map Prod.fst →
        x.1 ∈ (partsAll values).map Prod.fst := fun hw hmem => by
      obtain ⟨y, hy, hyx⟩ := List.mem_map.1 hmem
      exact hyx ▸ List.mem_map_of_mem (mem_partsAll hw hy)
    rcases List.mem_cons.1 hu with rfl | hu' <;> rcases List.mem_cons.1 hv with rfl | hv'
    · rw [parts_of_channel hc, List.map_cons, List.nodup_cons] at hd
      exact hd.1.1 (List.mem_map.2 ⟨x, hx, rfl⟩)
    · exact hd.2.2 _ hpart _ (hall hv' hown) rfl
    · exact hd.2.2 _ hown _ (hall hu' hpart) rfl
    · exact ih hd.2.1 hu' (List.mem_filterMap.2 ⟨v, hv', hc⟩) hv'

end Staged

/-! ### How far channels have come -/

/-- Nothing has been sent through the channel, and the task of a value in `P` that comes through it,
and no other, waits for it. -/
structure Awaits (s : Scheduler) (k : ℕ) (c : String) (P : List Late) : Prop where
  message_eq : (s.channel k).message = none
  senderGone_eq : (s.channel k).senderGone = false
  receiverGone_eq : (s.channel k).receiverGone = false
  waiting_iff (task : ℕ) : (s.channel k).waiting = some task ↔
    ∃ j ∈ P, j.value.channel? = some c ∧ j.task = task

/-- The channels in `values` are among all channels, and have numbers of their own.  What was sent
through the channels `D` lies there if it has not been shown, the others can be used, and the
receivers inside what comes later are there. -/
structure Posted (channels : String → ℕ) (all : List (String × Staged)) (D : List String)
    (values : List Staged) (P : List Late) (t : Tasks) : Prop where
  distinct : ((Staged.partsAll values).map Prod.fst).Nodup
  known {x : String × Staged} : x ∈ Staged.partsAll values → x ∈ all
  complete {x : String × Staged} : x ∈ all → x.1 ∈ D ∨ x ∈ Staged.partsAll values
  inj {x y : String × Staged} : x ∈ all → y ∈ all → channels x.1 = channels y.1 → x.1 = y.1
  spent {x : String × Staged} : x ∈ all → x.1 ∈ D → t.senders.get? x.1 = none
  lt_size {x : String × Staged} : x ∈ Staged.partsAll values →
    channels x.1 < t.scheduler.channels.size
  sent {x : String × Staged} : x ∈ Staged.partsAll values → x.1 ∈ D →
    ∃ text, (t.scheduler.channel (channels x.1)).message = some ⟨text, x.2.spec⟩
  unsent {x : String × Staged} : x ∈ Staged.partsAll values → x.1 ∉ D →
    t.senders.get? x.1 = some (channels x.1) ∧ Awaits t.scheduler (channels x.1) x.1 P
  receivers {v : Staged} {x : String × Staged} : v ∈ values → x ∈ v.body.parts →
    t.receivers.get? x.1 = some (channels x.1)
  aside {j : Late} : j ∈ P → ∃ c, j.value.channel? = some c ∧ c ∉ D

namespace Posted

theorem perm (h : Posted channels all D values P t) (hp : values.Perm values') :
    Posted channels all D values' P t := by
  have hparts : (Staged.partsAll values).Perm (Staged.partsAll values') := by
    rw [Staged.partsAll_eq_flatMap, Staged.partsAll_eq_flatMap]
    exact hp.flatMap_right _
  exact ⟨(hparts.map _).nodup_iff.1 h.distinct, fun hx => h.known (hparts.mem_iff.2 hx),
    fun hx => (h.complete hx).imp_right hparts.mem_iff.1, h.inj, h.spent,
    fun hx => h.lt_size (hparts.mem_iff.2 hx), fun hx => h.sent (hparts.mem_iff.2 hx),
    fun hx => h.unsent (hparts.mem_iff.2 hx), fun hv => h.receivers (hp.mem_iff.2 hv), h.aside⟩

/-- What does not touch the channels and their names does not matter. -/
theorem congr (h : Posted channels all D values P t) (hsenders : t'.senders = t.senders)
    (hreceivers : t'.receivers = t.receivers)
    (hchannels : t'.scheduler.channels = t.scheduler.channels) :
    Posted channels all D values P t' := by
  have hchannel (k : ℕ) : t'.scheduler.channel k = t.scheduler.channel k := by
    rw [Scheduler.channel, hchannels, Scheduler.channel]
  refine ⟨h.distinct, h.known, h.complete, h.inj, ?_, ?_, fun hx hxD => ?_, fun {x} hx hxD => ?_,
    ?_, h.aside⟩
  · rw [hsenders]
    exact h.spent
  · rw [hchannels]
    exact h.lt_size
  · rw [hchannel]
    exact h.sent hx hxD
  · obtain ⟨hsender, hwaits⟩ := h.unsent hx hxD
    have hsame := hchannel (channels x.1)
    exact ⟨hsenders ▸ hsender, hsame ▸ hwaits.message_eq, hsame ▸ hwaits.senderGone_eq,
      hsame ▸ hwaits.receiverGone_eq, fun task => by rw [hsame]; exact hwaits.waiting_iff task⟩
  · rw [hreceivers]
    exact h.receivers

/-- Two channels of values with the same number are the same. -/
theorem number_ne (h : Posted channels all D values P t) (hx : x ∈ Staged.partsAll values)
    (hy : y ∈ all) (hne : x.1 ≠ y.1) : channels x.1 ≠ channels y.1 :=
  fun e => hne (h.inj (h.known hx) hy e)

/-! ### Sending -/

/-- What lies in the channels after a value has been sent, if its task, which waited for it, does so
no longer. -/
theorem send {P' : List Late} (h : Posted channels all D values P t) (hx : x ∈ all) (hxD : x.1 ∉ D)
    (hsub : ∀ j ∈ P', j ∈ P) (hP : ∀ j ∈ P, j ∈ P' ↔ j.value.channel? ≠ some x.1)
    (hsenders : t'.senders = t.senders.unbind x.1) (hreceivers : t'.receivers = t.receivers)
    (hsize : t'.scheduler.channels.size = t.scheduler.channels.size)
    (hmessage : ∃ text, (t'.scheduler.channel (channels x.1)).message = some ⟨text, x.2.spec⟩)
    (hother : ∀ k, k ≠ channels x.1 → t'.scheduler.channel k = t.scheduler.channel k) :
    Posted channels all (x.1 :: D) values P' t' := by
  have hmem : x ∈ Staged.partsAll values := (h.complete hx).resolve_left hxD
  refine ⟨h.distinct, h.known, fun hy => (h.complete hy).imp_left (List.mem_cons_of_mem _), h.inj,
    fun {y} hy hyD => ?_, fun hy => hsize ▸ h.lt_size hy, fun {y} hy hyD => ?_,
    fun {y} hy hyD => ?_, fun hv hy => by rw [hreceivers]; exact h.receivers hv hy,
    fun {j} hj => ?_⟩
  · rw [hsenders, Table.get?_unbind]
    split_ifs with e
    · rfl
    · exact h.spent hy ((List.mem_cons.1 hyD).resolve_left e)
  · by_cases e : y.1 = x.1
    · obtain rfl : y = x := List.inj_on_of_nodup_map h.distinct hy hmem e
      exact hmessage
    · rw [hother _ (h.number_ne hy hx e)]
      exact h.sent hy ((List.mem_cons.1 hyD).resolve_left e)
  · rw [List.mem_cons, not_or] at hyD
    obtain ⟨hsender, hwaits⟩ := h.unsent hy hyD.2
    have hsame := hother _ (h.number_ne hy hx hyD.1)
    refine ⟨by rw [hsenders, Table.get?_unbind, if_neg hyD.1, hsender], ?_⟩
    refine ⟨hsame ▸ hwaits.message_eq, hsame ▸ hwaits.senderGone_eq, hsame ▸ hwaits.receiverGone_eq,
      fun task => ?_⟩
    rw [hsame, hwaits.waiting_iff]
    refine exists_congr fun j => ⟨fun ⟨hj, hc, ht⟩ => ⟨(hP j hj).2 fun hcx => ?_, hc, ht⟩,
      fun ⟨hj, hc, ht⟩ => ⟨hsub j hj, hc, ht⟩⟩
    exact hyD.1 (Option.some.inj (hc.symm.trans hcx))
  · obtain ⟨c, hc, hcD⟩ := h.aside (hsub j hj)
    refine ⟨c, hc, fun hin => ?_⟩
    rcases List.mem_cons.1 hin with rfl | hin
    · exact (hP j (hsub j hj)).1 hj hc
    · exact hcD hin

/-- Sending once more through a channel that has been used does nothing. -/
theorem send_again (h : Posted channels all D values P t) (hx : x ∈ all) (hxD : x.1 ∈ D)
    (m : Message) : ∃ t', t.send x.1 m = (Tasks.noSender, t') ∧
      t'.scheduler = t.scheduler ∧ Posted channels all (x.1 :: D) values P t' := by
  have hsenders : ∀ {c : String}, c ≠ x.1 →
      (t.senders.unbind x.1).get? c = t.senders.get? c := fun hne => by
    rw [Table.get?_unbind, if_neg hne]
  have hmem : ∀ {c : String}, c ∈ x.1 :: D ↔ c ∈ D := fun {c} => by
    rw [List.mem_cons]
    exact or_iff_right_of_imp fun e => e ▸ hxD
  refine ⟨{ t with senders := t.senders.unbind x.1 }, ?_, rfl, h.distinct, h.known,
    fun hy => (h.complete hy).imp_left hmem.2, h.inj, fun {y} hy hyD => ?_, h.lt_size,
    fun hy hyD => h.sent hy (hmem.1 hyD), fun {y} hy hyD => ?_, h.receivers, fun hj => ?_⟩
  · simp only [Tasks.send, Tasks.takeSender, h.spent hx hxD]
  · rw [Table.get?_unbind]
    split_ifs with e
    · rfl
    · exact h.spent hy (hmem.1 hyD)
  · rw [hmem] at hyD
    rw [hsenders (c := y.1) fun e => hyD (e ▸ hxD)]
    exact h.unsent hy hyD
  · obtain ⟨c, hc, hcD⟩ := h.aside hj
    exact ⟨c, hc, fun hin => hcD (hmem.1 hin)⟩

end Posted

/-- What sending leaves alone. -/
structure Scheduler.SameRest (s s' : Scheduler) : Prop where
  polling_eq : s'.pool.polling = s.pool.polling
  errors_eq : s'.errors = s.errors

/-- The scheduler with a message in a channel whose sender has been used. -/
def Scheduler.posting (s : Scheduler) (k : ℕ) (m : Message) : Scheduler :=
  s.modifyChannel k fun ch => { ch with message := some m, senderGone := true }

theorem Scheduler.channel_posting {k l : ℕ} {m : Message} (hk : k < s.channels.size) :
    (s.posting k m).channel l =
      if l = k then { s.channel k with message := some m, senderGone := true }
      else s.channel l := by
  rw [posting, channel_modifyChannel]
  simp only [hk, and_true]

namespace Posted

/-- Sending for the first time. -/
theorem send_eq (h : Posted channels all D values P t) (hx : x ∈ all) (hxD : x.1 ∉ D)
    (m : Message) : t.send x.1 m = (.flag true, { t with
      senders := t.senders.unbind x.1
      scheduler := (t.scheduler.posting (channels x.1) m).wakeWaiting (channels x.1) }) := by
  obtain ⟨hsender, hwaits⟩ := h.unsent ((h.complete hx).resolve_left hxD) hxD
  simp only [Tasks.send, Tasks.takeSender, hsender, Scheduler.send, hwaits.receiverGone_eq]
  rfl

/-- The task that waits for a value is the task of the only value in `P` that comes through its
channel. -/
theorem exists_waiting (h : Posted channels all D values P t) (hx : x ∈ all) (hxD : x.1 ∉ D)
    (hd : (P.map Late.task).Nodup) {task : ℕ}
    (hw : (t.scheduler.channel (channels x.1)).waiting = some task) :
    ∃ j P', P.Perm (j :: P') ∧ j.task = task ∧ (∀ i ∈ P', i ∈ P) ∧
      ∀ i ∈ P, i ∈ P' ↔ i.value.channel? ≠ some x.1 := by
  obtain ⟨-, hwaits⟩ := h.unsent ((h.complete hx).resolve_left hxD) hxD
  obtain ⟨j, hj, hc, htask⟩ := (hwaits.waiting_iff task).1 hw
  obtain ⟨P₁, P₂, rfl⟩ := List.append_of_mem hj
  have hperm : (P₁ ++ j :: P₂).Perm (j :: (P₁ ++ P₂)) := List.perm_middle
  have hout := (List.nodup_cons.1 ((hperm.map _).nodup_iff.1 hd)).1
  have hsub : ∀ i ∈ P₁ ++ P₂, i ∈ P₁ ++ j :: P₂ := fun i hi =>
    hperm.mem_iff.2 (List.mem_cons_of_mem _ hi)
  refine ⟨j, P₁ ++ P₂, hperm, htask, hsub, fun i hi => ⟨fun hin hic => ?_, fun hne => ?_⟩⟩
  · have hsame := (hwaits.waiting_iff i.task).2 ⟨i, hi, hic, rfl⟩
    have htasks : i.task = j.task := (Option.some.inj (hw.symm.trans hsame)).symm.trans htask.symm
    exact hout (htasks ▸ List.mem_map_of_mem hin)
  · exact (List.mem_cons.1 (hperm.mem_iff.1 hi)).resolve_left fun e => hne (e ▸ hc)

/-- Sending a value wakes the task that waits for it. -/
theorem exists_send (h : Posted channels all D values P t) (hx : x ∈ all) (text : String)
    (hlined : Lined channels t.scheduler Q I P) :
    ∃ Q' P' reply t', t.send x.1 ⟨text, x.2.spec⟩ = (reply, t') ∧
      Lined channels t'.scheduler Q' I P' ∧ Posted channels all (x.1 :: D) values P' t' ∧
      (Q' ++ I ++ P').Perm (Q ++ I ++ P) ∧ t.scheduler.SameRest t'.scheduler := by
  by_cases hxD : x.1 ∈ D
  · obtain ⟨t', hsend, hsame, hposted⟩ := h.send_again hx hxD ⟨text, x.2.spec⟩
    exact ⟨Q, P, _, t', hsend, hsame ▸ hlined, hposted, .refl _, by rw [hsame]; exact ⟨rfl, rfl⟩⟩
  have hmem : x ∈ Staged.partsAll values := (h.complete hx).resolve_left hxD
  have hlt := h.lt_size hmem
  have hwaits := (h.unsent hmem hxD).2
  have hsend := h.send_eq hx hxD ⟨text, x.2.spec⟩
  have hposting (l : ℕ) := t.scheduler.channel_posting (l := l) (m := ⟨text, x.2.spec⟩) hlt
  generalize hs : t.scheduler.posting (channels x.1) ⟨text, x.2.spec⟩ = s at hsend hposting
  have hlined' : Lined channels s Q I P := by
    subst hs
    exact hlined.congr rfl rfl rfl rfl
  have hsize : s.channels.size = t.scheduler.channels.size := by
    subst hs
    simp [Scheduler.posting]
  have hrest : t.scheduler.SameRest s := by
    subst hs
    exact ⟨rfl, rfl⟩
  have hself := hposting (channels x.1)
  rw [if_pos rfl] at hself
  cases hw : (t.scheduler.channel (channels x.1)).waiting with
  | none =>
    have hwake : s.wakeWaiting (channels x.1) = s := by rw [Scheduler.wakeWaiting, hself, hw]
    rw [hwake] at hsend
    refine ⟨Q, P, _, _, hsend, hlined', h.send hx hxD (fun _ => id) (fun j hj => ?_) rfl rfl
      hsize ⟨text, by rw [hself]⟩ (fun l hl => by rw [hposting, if_neg hl]), .refl _, hrest⟩
    refine iff_of_true hj fun hc => ?_
    have hsome := (hwaits.waiting_iff j.task).2 ⟨j, hj, hc, rfl⟩
    rw [hw] at hsome
    cases hsome
  | some task =>
    obtain ⟨j, P', hperm, rfl, hsub, hP⟩ := h.exists_waiting hx hxD
      ((List.nodup_append.1 (by simpa only [List.map_append] using hlined.nodup)).2.1) hw
    have hwake : s.wakeWaiting (channels x.1) =
        (s.modifyChannel (channels x.1) fun ch => { ch with waiting := none }).wake j.task := by
      rw [Scheduler.wakeWaiting, hself, hw]
    have hchannel (l : ℕ) : (s.wakeWaiting (channels x.1)).channel l =
        if l = channels x.1 then { s.channel (channels x.1) with waiting := none }
        else s.channel l := by
      rw [hwake, (Scheduler.Keeps.wake (m := 0) (P := fun _ => False) _ _).channel_eq id,
        Scheduler.channel_modifyChannel]
      simp only [hsize, hlt, and_true]
    refine ⟨Q ++ [j], P', _, _, hsend, ?_, h.send hx hxD hsub hP rfl rfl ?_ ⟨text, ?_⟩
      (fun l hl => ?_), ?_, ?_⟩
    · rw [hwake]
      exact Lined.wake ((hlined'.perm hperm).congr rfl rfl rfl rfl)
    · rw [hwake, (Scheduler.Keeps.wake (m := 0) (P := fun _ => False) _ _).channels_size]
      simp [hsize]
    · rw [hchannel, if_pos rfl, hself]
    · rw [hchannel, if_neg hl, hposting, if_neg hl]
    · rw [List.append_assoc, List.append_assoc, List.append_assoc, List.singleton_append]
      exact (List.perm_middle.symm.trans (hperm.symm.append_left I)).append_left Q
    · rw [hwake]
      unfold Scheduler.wake
      split_ifs <;> exact ⟨hrest.polling_eq, hrest.errors_eq⟩

/-! ### Receiving -/

/-- A task that looks for a value which has not been sent waits for it. -/
theorem receive_unsent (h : Posted channels all D values P t) (hx : x ∈ Staged.partsAll values)
    (hxD : x.1 ∉ D) (hj : j.value.channel? = some x.1)
    (hfree : ∀ i ∈ P, i.value.channel? ≠ some x.1) :
    ∃ s, t.scheduler.receive j.task (channels x.1) = (.nothing, s) ∧
      Posted channels all D values (j :: P) { t with scheduler := s } ∧
      t.scheduler.SameRest s ∧ s.programs = t.scheduler.programs ∧ s.pool = t.scheduler.pool := by
  obtain ⟨-, hwaits⟩ := h.unsent hx hxD
  refine ⟨t.scheduler.modifyChannel (channels x.1) fun ch => { ch with waiting := some j.task }, ?_,
    ⟨h.distinct, h.known, h.complete, h.inj, h.spent, fun hy => ?_, fun {y} hy hyD => ?_,
      fun {y} hy hyD => ?_, h.receivers, fun {i} hi => ?_⟩, ⟨rfl, rfl⟩, rfl, rfl⟩
  · rw [Scheduler.receive, hwaits.message_eq, hwaits.senderGone_eq]
  · simpa using h.lt_size hy
  · have hne : y.1 ≠ x.1 := fun e => hxD (e ▸ hyD)
    simp only
    rw [Scheduler.channel_modifyChannel, if_neg fun e => h.number_ne hy (h.known hx) hne e.1]
    exact h.sent hy hyD
  · obtain ⟨hsender, hwaits'⟩ := h.unsent hy hyD
    refine ⟨hsender, ?_⟩
    by_cases e : y.1 = x.1
    · have hchannel : ((t.scheduler.modifyChannel (channels x.1) fun ch =>
          { ch with waiting := some j.task }).channel (channels x.1)) =
            { t.scheduler.channel (channels x.1) with waiting := some j.task } := by
        rw [Scheduler.channel_modifyChannel, if_pos ⟨rfl, h.lt_size hx⟩]
      rw [e]
      refine ⟨hchannel ▸ hwaits.message_eq, hchannel ▸ hwaits.senderGone_eq,
        hchannel ▸ hwaits.receiverGone_eq, fun task => ?_⟩
      rw [hchannel, Option.some.injEq]
      constructor
      · rintro rfl
        exact ⟨j, List.mem_cons_self, hj, rfl⟩
      · rintro ⟨i, hi, hc, rfl⟩
        rcases List.mem_cons.1 hi with rfl | hi
        · rfl
        · exact absurd hc (hfree i hi)
    · have hsame : ∀ change, (t.scheduler.modifyChannel (channels x.1) change).channel
          (channels y.1) = t.scheduler.channel (channels y.1) := fun change => by
        rw [Scheduler.channel_modifyChannel, if_neg fun he => h.number_ne hy (h.known hx) e he.1]
      refine ⟨(hsame _).symm ▸ hwaits'.message_eq, (hsame _).symm ▸ hwaits'.senderGone_eq,
        (hsame _).symm ▸ hwaits'.receiverGone_eq, fun task => ?_⟩
      rw [hsame, hwaits'.waiting_iff]
      refine exists_congr fun i => and_congr_left fun hi => ?_
      rw [List.mem_cons]
      refine (or_iff_right ?_).symm
      rintro rfl
      exact e (Option.some.inj (hi.1.symm.trans hj))
  · rcases List.mem_cons.1 hi with rfl | hi
    · exact ⟨x.1, hj, hxD⟩
    · exact h.aside hi

/-- What has been sent is received once. -/
theorem receive_sent (h : Posted channels all D values P t) (hx : x ∈ Staged.partsAll values)
    (hxD : x.1 ∈ D) (task : ℕ) : ∃ text, t.scheduler.receive task (channels x.1) =
      (.message ⟨text, x.2.spec⟩, t.scheduler.dropReceiver (channels x.1)) := by
  obtain ⟨text, hmessage⟩ := h.sent hx hxD
  exact ⟨text, by rw [Scheduler.receive, hmessage]⟩

/-- When a value has come, the channels inside it are open, and those that it holds are taken. -/
theorem openBody (h : Posted channels all D (u :: rest) P t) (hu : u.IsLater)
    (hcome : ∀ c, u.channel? = some c → c ∈ D) (hsenders : t'.senders = t.senders)
    (hreceivers : t'.receivers = u.body.held.foldl Table.unbind t.receivers)
    (hsize : t'.scheduler.channels.size = t.scheduler.channels.size)
    (hother : ∀ k, (∀ c, u.channel? = some c → k ≠ channels c) →
      t'.scheduler.channel k = t.scheduler.channel k) :
    Posted channels all D (u.body.pending ++ rest) P t' := by
  have hparts : Staged.partsAll (u.body.pending ++ rest) =
      u.body.parts ++ Staged.partsAll rest := by
    rw [Staged.partsAll_append, Staged.partsAll_pending]
  have hsub : (Staged.partsAll (u.body.pending ++ rest)).Sublist (Staged.partsAll (u :: rest)) := by
    rw [hparts, Staged.partsAll]
    exact u.sublist_parts_body.append_right _
  have hd := h.distinct
  have hd' := hd.sublist (hsub.map Prod.fst)
  have hsame : ∀ y ∈ Staged.partsAll (u.body.pending ++ rest),
      t'.scheduler.channel (channels y.1) = t.scheduler.channel (channels y.1) := by
    intro y hy
    refine hother _ fun c hc e => ?_
    rw [Staged.partsAll, Staged.parts_of_channel hc, List.cons_append, ← hparts, List.map_cons,
      List.nodup_cons] at hd
    have hcy : y.1 = c := h.inj (y := (c, u.body)) (h.known (hsub.subset hy))
      (h.known (Staged.mem_partsAll_of_channel List.mem_cons_self hc)) e
    exact hd.1 (List.mem_map.2 ⟨y, hy, hcy⟩)
  refine ⟨hd', fun hx => h.known (hsub.subset hx), fun {x} hx => ?_, h.inj, ?_,
    fun hx => hsize ▸ h.lt_size (hsub.subset hx), fun hx hxD => ?_, fun {x} hx hxD => ?_,
    fun {v x} hv hx => ?_, h.aside⟩
  · rcases h.complete hx with hxD | hx
    · exact Or.inl hxD
    · rw [hparts]
      rcases List.mem_append.1 hx with hx | hx
      · exact (u.mem_parts_cases hu hx).imp (hcome _) (List.mem_append_left _)
      · exact Or.inr (List.mem_append_right _ hx)
  · rw [hsenders]
    exact h.spent
  · rw [hsame _ hx]
    exact h.sent (hsub.subset hx) hxD
  · obtain ⟨hsender, hwaits⟩ := h.unsent (hsub.subset hx) hxD
    have heq := hsame _ hx
    exact ⟨hsenders ▸ hsender, heq ▸ hwaits.message_eq, heq ▸ hwaits.senderGone_eq,
      heq ▸ hwaits.receiverGone_eq, fun task => by rw [heq]; exact hwaits.waiting_iff task⟩
  · have hout : x.1 ∉ u.body.held ∧ t.receivers.get? x.1 = some (channels x.1) := by
      rw [hparts, List.map_append, List.nodup_append] at hd'
      rcases List.mem_append.1 hv with hv | hv
      · refine ⟨Staged.not_mem_filterMap_channel ?_ hv hx,
          h.receivers List.mem_cons_self (Staged.mem_parts_of_mem_pending hv ?_)⟩
        · rw [Staged.partsAll_pending]
          exact hd'.1
        · exact Staged.mem_parts_of_mem_body hx
      · refine ⟨fun hin => ?_, h.receivers (List.mem_cons_of_mem _ hv) hx⟩
        refine hd'.2.2 _ ((Staged.sublist_held _).subset hin) _ (List.mem_map_of_mem ?_) rfl
        exact Staged.mem_partsAll hv (Staged.mem_parts_of_mem_body hx)
    rw [hreceivers, Table.get?_unbindAll _ _ _ hout.1, hout.2]

end Posted

end LiveMarkup

import AbcTune.Fault
import AbcTune.Proofs.Voice.Clocks

/-! # Channels for voices that state none

A voice that states no channel gets one when it is created: percussion has a channel to itself, and
all other voices take turns on the fifteen channels that are left. Voices come from definitions,
from switches, and from notes and settings without a voice. Wherever one comes from, the turn passes
on exactly if the voice is given a channel in turn.
-/
namespace AbcTune

/-- Whether a voice that is created with these settings is given one of the channels in turn. -/
def Attributes.wantsChannel (a : Attributes) : Bool :=
  a.channel.isNone && decide (a.clef ≠ some .percussion)

namespace VoiceTable

/-- The channels that are given in turn. -/
def melodicChannels : List Nat := [0, 1, 2, 3, 4, 5, 6, 7, 8, 10, 11, 12, 13, 14, 15]

section Tables

variable {β : Type} {t u : VoiceTable β}

/-- The settings that an operation creates a voice with. -/
def Operation.attributes : Operation β → Attributes
  | .define _ a => a
  | _ => .none

/-- The voices of a table that are not in an earlier one. -/
def newcomers (t u : VoiceTable β) : List (Voice β) := u.voices.filter fun v => !t.contains v.id

theorem newcomers_eq {front back : List (Voice β)} (hvoices : u.voices = front ++ back)
    (hfront : front.map (·.id) = t.order) (hback : ∀ v ∈ back, t.contains v.id = false) :
    t.newcomers u = back := by
  have hold : ∀ v ∈ front, ¬(!t.contains v.id) = true := by
    intro v hv
    have hmem : v.id ∈ t.order := hfront ▸ List.mem_map_of_mem hv
    simp [(contains_iff t v.id).mpr hmem]
  have hnew : ∀ v ∈ back, (!t.contains v.id) = true := fun v hv => by simp [hback v hv]
  rw [newcomers, hvoices, List.filter_append, List.filter_eq_nil_iff.mpr hold,
    List.filter_eq_self.mpr hnew, List.nil_append]

theorem newcomers_of_order (h : u.order = t.order) : t.newcomers u = [] :=
  newcomers_eq (List.append_nil _).symm h (List.forall_mem_nil _)

/-! ## Channels in range -/

theorem freeChannel_le (next : Nat) : freeChannel next ≤ 15 := by
  unfold freeChannel
  generalize (if next = percussionChannel then next + 1 else next) = n
  dsimp only
  split <;> omega

theorem readChannel_le {value : Text} {c : Nat} (h : Attributes.readChannel value = .ok c) :
    c ≤ 15 := by
  obtain ⟨n,-,hn⟩ := exists_of_bind_ok h
  split at hn
  · cases hn
    omega
  · cases hn

/-- The channel of a voice that is created. -/
def channelFor (t : VoiceTable β) (a : Attributes) : Nat :=
  a.channel.getD
    (if a.clef = some .percussion then percussionChannel else freeChannel t.nextChannel)

theorem channelFor_of_wantsChannel {a : Attributes} (h : a.wantsChannel = true) :
    t.channelFor a = freeChannel t.nextChannel := by
  simp only [Attributes.wantsChannel, Bool.and_eq_true, Option.isNone_iff_eq_none,
    decide_eq_true_eq] at h
  rw [channelFor, h.1, if_neg h.2, Option.getD_none]

theorem channelFor_le {a : Attributes} (h : ∀ c ∈ a.channel, c ≤ 15) : t.channelFor a ≤ 15 := by
  unfold channelFor
  cases hchannel : a.channel with
  | some c => exact h c hchannel
  | none =>
    rw [Option.getD_none]
    split
    · decide
    · exact freeChannel_le _

theorem channel_withAttributes_le {v : Voice β} {a : Attributes} (h : ∀ c ∈ a.channel, c ≤ 15)
    (hv : v.channel ≤ 15) : (v.withAttributes a).channel ≤ 15 := by
  unfold Voice.withAttributes
  dsimp only
  cases hchannel : a.channel with
  | some c => exact h c hchannel
  | none =>
    rw [Option.getD_none]
    split
    · decide
    · exact hv

theorem channel_withAttributes {a : Attributes} (h : a.wantsChannel = true) (v : Voice β) :
    (v.withAttributes a).channel = v.channel := by
  simp only [Attributes.wantsChannel, Bool.and_eq_true, Option.isNone_iff_eq_none,
    decide_eq_true_eq] at h
  unfold Voice.withAttributes
  simp [h.1, h.2]

/-- Every voice is on a channel that there is. -/
def InRange (t : VoiceTable β) : Prop := ∀ v ∈ t.voices, v.channel ≤ 15

theorem InRange.modify (h : t.InRange) (id : String) {f : Voice β → Voice β}
    (hf : ∀ v, v.channel ≤ 15 → (f v).channel ≤ 15) : (t.modify id f).InRange := by
  intro w hw
  obtain ⟨v,hv,rfl⟩ := List.mem_map.mp hw
  split
  · exact hf v (h v hv)
  · exact h v hv

theorem InRange.suspend (h : t.InRange) : t.suspend.InRange := by
  cases hactive : t.active with
  | none => rwa [suspend_of_none hactive]
  | some id =>
    rw [VoiceTable.suspend, hactive]
    exact h.modify (f := fun v => { v with savedTime := t.cursor, status := .suspended }) id
      fun _ hv => hv

end Tables

variable {β : Type} [Beats β] {t u w : VoiceTable β} {id : String} {a : Attributes}

theorem create_eq (t : VoiceTable β) (id : String) (a : Attributes) :
    t.create id a = { t with
      voices := t.voices ++ [{ Voice.new id with status := .defined, channel := t.channelFor a }]
      nextChannel := if a.wantsChannel then freeChannel t.nextChannel + 1 else t.nextChannel } := by
  unfold create channelFor Attributes.wantsChannel
  cases hchannel : a.channel with
  | some c => rfl
  | none =>
    by_cases hclef : a.clef = some .percussion
    · simp [hclef]
    · simp [hclef]

theorem inRange_empty : (empty : VoiceTable β).InRange := List.forall_mem_nil _

theorem InRange.ensure (h : t.InRange) (ha : ∀ c ∈ a.channel, c ≤ 15) (id : String) :
    (t.ensure id a).InRange := by
  unfold VoiceTable.ensure
  split
  · exact h
  · rw [create_eq]
    intro v hv
    rcases List.mem_append.mp hv with hv | hv
    · exact h v hv
    · rw [List.mem_singleton.mp hv]
      exact channelFor_le ha

theorem InRange.define (h : t.InRange) (ha : ∀ c ∈ a.channel, c ≤ 15) (id : String) :
    (t.define id a).InRange :=
  (h.ensure ha id).modify id fun _ hv => channel_withAttributes_le ha hv

theorem InRange.switchTo (h : t.InRange) (id : String) : (t.switchTo id).InRange := by
  unfold VoiceTable.switchTo
  split
  · exact h
  · have hensured := h.suspend.ensure (a := .none) (fun c hc => (Option.not_mem_none c hc).elim) id
    exact hensured.modify (f := fun v => { v with status := .active }) id fun _ hv => hv

theorem InRange.ensureSettings (h : t.InRange) : t.ensureSettings.InRange := by
  unfold VoiceTable.ensureSettings
  split
  · exact h
  · exact h.define (fun c hc => (Option.not_mem_none c hc).elim) implicitVoice

theorem InRange.syncAll (h : t.InRange) : t.syncAll.InRange := by
  intro w hw
  obtain ⟨v,hv,rfl⟩ := List.mem_map.mp hw
  exact h v hv

theorem InRange.apply (h : t.InRange) {op : Operation β}
    (ha : ∀ c ∈ op.attributes.channel, c ≤ 15) : (t.apply op).InRange := by
  cases op with
  | define id a => exact h.define ha id
  | switchTo id => exact h.switchTo id
  | ensureActive => exact h.switchTo t.noteVoice
  | ensureSettings => exact h.ensureSettings
  | advance beats => exact h
  | syncAll => exact h.syncAll

theorem InRange.run (h : t.InRange) {ops : List (Operation β)}
    (hops : ∀ op ∈ ops, ∀ c ∈ op.attributes.channel, c ≤ 15) : (t.run ops).InRange := by
  induction ops generalizing t with
  | nil => exact h
  | cons op rest ih =>
    obtain ⟨hop,hrest⟩ := List.forall_mem_cons.mp hops
    exact ih (h.apply hop) hrest

/-! ## One operation -/

/-- A table has no new voice, and the turn stays where it is; or it has one, on the channel whose
turn it was if it is given one in turn, and then it is the next one's turn. -/
inductive Grown (t : VoiceTable β) (a : Attributes) (u : VoiceTable β) : Prop where
  | none (hvoices : t.newcomers u = []) (hnext : u.nextChannel = t.nextChannel)
  | one (v : Voice β) (hvoices : t.newcomers u = [v])
      (hchannel : a.wantsChannel = true → v.channel = freeChannel t.nextChannel)
      (hnext : u.nextChannel =
        if a.wantsChannel then freeChannel t.nextChannel + 1 else t.nextChannel)

/-- Changes within the voices make no difference to which of them are new, and those that are given
a channel in turn keep it. -/
theorem Grown.of_ensure (horder : w.order = t.order) (hturn : w.nextChannel = t.nextChannel)
    {f : Voice β → Voice β} (hvoices : u.voices = (w.ensure id a).voices.map f)
    (hnext : u.nextChannel = (w.ensure id a).nextChannel) (hid : ∀ v, (f v).id = v.id)
    (hchannel : a.wantsChannel = true → ∀ v, (f v).channel = v.channel) : Grown t a u := by
  have hfront : (w.voices.map f).map (·.id) = t.order := by
    rw [← horder, order, List.map_map]
    exact List.map_congr_left fun v _ => hid v
  by_cases hmem : w.contains id = true
  · rw [ensure, if_pos hmem] at hvoices hnext
    refine .none ?_ (hnext.trans hturn)
    exact newcomers_of_order (by rw [← hfront, order, hvoices])
  · rw [ensure, if_neg hmem, create_eq] at hvoices hnext
    rw [hturn] at hnext
    rw [List.map_append] at hvoices
    have hfree : t.contains id = false := by
      rw [Bool.eq_false_iff, Ne, contains_iff, ← horder, ← contains_iff]
      exact hmem
    refine .one _ (newcomers_eq hvoices hfront ?_) (fun ha => ?_) hnext
    · intro v hv
      rw [List.mem_singleton.mp hv, hid]
      exact hfree
    · rw [hchannel ha]
      exact (channelFor_of_wantsChannel ha).trans (congrArg freeChannel hturn)

theorem grown_define (t : VoiceTable β) (id : String) (a : Attributes) :
    Grown t a (t.define id a) := by
  refine .of_ensure rfl rfl rfl rfl (fun v => ?_) fun ha v => ?_
  · split <;> rfl
  · split
    · exact channel_withAttributes ha v
    · rfl

theorem grown_switchTo (t : VoiceTable β) (id : String) : Grown t .none (t.switchTo id) := by
  unfold switchTo
  split
  · exact .none (newcomers_of_order rfl) rfl
  · have hturn : t.suspend.nextChannel = t.nextChannel := by
      unfold suspend
      split <;> rfl
    refine .of_ensure (order_suspend t) hturn rfl rfl (fun v => ?_) fun _ v => ?_ <;> split <;> rfl

theorem grown_ensureSettings (t : VoiceTable β) : Grown t .none t.ensureSettings := by
  unfold ensureSettings
  split
  · exact .none (newcomers_of_order rfl) rfl
  · exact grown_define t implicitVoice .none

theorem grown_apply (t : VoiceTable β) (op : Operation β) : Grown t op.attributes (t.apply op) := by
  cases op with
  | define id a => exact grown_define t id a
  | switchTo id => exact grown_switchTo t id
  | ensureActive => exact grown_switchTo t t.noteVoice
  | ensureSettings => exact grown_ensureSettings t
  | advance beats => exact .none (newcomers_of_order rfl) rfl
  | syncAll => exact .none (newcomers_of_order (order_syncAll t)) rfl

/-! ## Channels in turn -/

/-- The voices that are given a channel in turn, each as it is when it has been created. -/
def assigned : VoiceTable β → List (Operation β) → List (Voice β)
  | _, [] => []
  | t, op :: rest =>
    (if op.attributes.wantsChannel then t.newcomers (t.apply op) else []) ++
      assigned (t.apply op) rest

theorem melodicChannels_succ {n c : Nat} (h : melodicChannels[n % 15]? = some c) :
    melodicChannels[(n + 1) % 15]? = some (freeChannel (c + 1)) := by
  have hall : ∀ k < 15, melodicChannels[(k + 1) % 15]? =
      melodicChannels[k]?.map fun c => freeChannel (c + 1) := by
    decide
  have hmod : (n + 1) % 15 = (n % 15 + 1) % 15 := by omega
  rw [hmod, hall (n % 15) (Nat.mod_lt n (by decide)), h]
  rfl

/-- Where it is a channel's turn, the voices of a run get this one and those that follow it. -/
theorem channel_assigned {n : Nat}
    (hturn : melodicChannels[n % 15]? = some (freeChannel t.nextChannel))
    {ops : List (Operation β)} {i : Nat} {v : Voice β} (hv : (t.assigned ops)[i]? = some v) :
    melodicChannels[(n + i) % 15]? = some v.channel := by
  induction ops generalizing t n i with
  | nil => cases hv
  | cons op rest ih =>
    rw [assigned] at hv
    cases hwants : op.attributes.wantsChannel with
    | false =>
      rw [hwants, if_neg Bool.false_ne_true, List.nil_append] at hv
      refine ih ?_ hv
      cases grown_apply t op with
      | none _ hnext => rwa [hnext]
      | one _ _ _ hnext => rwa [hnext, hwants, if_neg Bool.false_ne_true]
    | true =>
      rw [hwants, if_pos rfl] at hv
      cases grown_apply t op with
      | none hnone hnext =>
        rw [hnone, List.nil_append] at hv
        exact ih (hnext ▸ hturn) hv
      | one first hfirst hchannel hnext =>
        rw [hfirst, List.singleton_append] at hv
        cases i with
        | zero =>
          rw [List.getElem?_cons_zero, Option.some.injEq] at hv
          rw [← hv, hchannel hwants]
          exact hturn
        | succ i =>
          rw [List.getElem?_cons_succ] at hv
          rw [hwants, if_pos rfl] at hnext
          have hrest := ih (n := n + 1) (by rw [hnext]; exact melodicChannels_succ hturn) hv
          rwa [Nat.add_assoc, Nat.add_comm 1 i] at hrest

/-- A channel comes round every fifteen turns and not before. -/
theorem mod_eq_of_melodicChannels {m n c : Nat} (hm : melodicChannels[m % 15]? = some c)
    (hn : melodicChannels[n % 15]? = some c) : m % 15 = n % 15 := by
  have hnodup : melodicChannels.Nodup := by decide
  have hlt : m % 15 < melodicChannels.length := Nat.mod_lt m (by decide)
  exact (List.getElem?_inj hlt hnodup).mp (hm.trans hn.symm)

theorem nodup_of_inTurn {n : Nat} {channels : List Nat} (hlength : channels.length ≤ 15)
    (hturn : ∀ i c, channels[i]? = some c → melodicChannels[(n + i) % 15]? = some c) :
    channels.Nodup := by
  rw [List.nodup_iff_getElem?_ne_getElem?]
  intro j k hjk hk heq
  have hlast := List.getElem?_eq_getElem hk
  have hmod := mod_eq_of_melodicChannels (hturn j _ (heq.trans hlast)) (hturn k _ hlast)
  omega

/-- Whatever is asked of a new table, if each channel that is stated is one that can be read, no
voice is ever on a channel above 15. Those created without a stated channel and without the
percussion clef get the melodic channels in turn, and never the percussion channel; any fifteen of
them in a row are on different channels. -/
theorem run_channels {ops : List (Operation β)}
    (hstated : ∀ id a, .define id a ∈ ops → ∀ c ∈ a.channel,
      ∃ value, Attributes.readChannel value = .ok c) :
    (∀ before, before <+: ops → ∀ v ∈ (empty.run before : VoiceTable β).voices, v.channel ≤ 15) ∧
    (∀ i v, (empty.assigned ops)[i]? = some v →
      melodicChannels[i % 15]? = some v.channel ∧ v.channel ≠ percussionChannel) ∧
    ∀ i, (((empty.assigned ops).drop i).take 15).map (·.channel) |>.Nodup := by
  have hrange : ∀ op ∈ ops, ∀ c ∈ op.attributes.channel, c ≤ 15 := by
    intro op hop c hc
    cases op with
    | define id a =>
      obtain ⟨value,hvalue⟩ := hstated id a hop c hc
      exact readChannel_le hvalue
    | _ => cases hc
  have hturn : ∀ i v, (empty.assigned ops)[i]? = some v →
      melodicChannels[i % 15]? = some v.channel := by
    intro i v hv
    have hchannel := channel_assigned (n := 0) (t := (empty : VoiceTable β)) rfl hv
    rwa [Nat.zero_add] at hchannel
  refine ⟨fun before hbefore => ?_,fun i v hv => ⟨hturn i v hv,?_⟩,fun i => ?_⟩
  · exact inRange_empty.run fun op hop => hrange op (hbefore.subset hop)
  · intro hpercussion
    have hmem := List.mem_of_getElem? (hturn i v hv)
    rw [hpercussion] at hmem
    revert hmem
    decide
  · refine nodup_of_inTurn (n := i) ?_ fun j c hc => ?_
    · rw [List.length_map]
      exact List.length_take_le _ _
    · rw [List.getElem?_map, List.getElem?_take] at hc
      split at hc
      · obtain ⟨v,hv,rfl⟩ := Option.map_eq_some_iff.mp hc
        exact hturn (i + j) v (List.getElem?_drop.symm.trans hv)
      · cases hc

/-- A voice for settings, one of percussion and one on the percussion channel by its own statement,
and then sixteen that only have a name. -/
def crowd : List (Operation Rat) :=
  .ensureSettings :: .define "drums" { Attributes.none with clef := some .percussion } ::
    .define "solo" { Attributes.none with channel := some 9 } ::
    (List.range 16).map fun n => .switchTo (String.ofList (List.replicate (n + 2) '1'))

/-- The sixteenth voice in turn starts over, and the seventeenth follows it. -/
theorem run_channels_crowd :
    (∀ id a, .define id a ∈ crowd → ∀ c ∈ a.channel,
      ∃ value, Attributes.readChannel value = .ok c) ∧
    ∃ v, (empty.assigned crowd)[16]? = some v ∧ v.channel = 1 ∧ v.status = .active ∧
      (((empty.assigned crowd).drop 2).take 15).map (·.channel) =
        [2, 3, 4, 5, 6, 7, 8, 10, 11, 12, 13, 14, 15, 0, 1] ∧
      ((((empty.assigned crowd).drop 2).take 15).map (·.channel)).Nodup := by
  have hstated : ∀ id a, .define id a ∈ crowd → ∀ c ∈ a.channel,
      ∃ value, Attributes.readChannel value = .ok c := by
    intro id a hdefine c hc
    simp only [crowd, List.mem_cons, List.mem_map, reduceCtorEq, and_false, exists_false, or_false,
      false_or, Operation.define.injEq] at hdefine
    rcases hdefine with ⟨-,rfl⟩ | ⟨-,rfl⟩
    · cases hc
    · cases hc
      exact ⟨"10".toList,rfl⟩
  obtain ⟨-,hturn,hrow⟩ := run_channels hstated
  have hevaluated : (empty.assigned crowd)[16]?.map (·.status) = some .active := by decide +kernel
  obtain ⟨v,hv,hstatus⟩ := Option.map_eq_some_iff.mp hevaluated
  have hchannel := (hturn 16 v hv).1
  exact ⟨hstated,v,hv,(Option.some.inj hchannel).symm,hstatus,by decide +kernel,hrow 2⟩

end VoiceTable
end AbcTune

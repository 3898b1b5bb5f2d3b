import Adwarden.Tls.DohTrace
import Mathlib.Data.List.Nodup

/-! The life of the streams of an HTTP/2 DoH flow over whole runs. -/
namespace Adwarden.Tls
open Adwarden.Lib

open H2Event

/-- Each stream is surfaced at most once and answered at most once, and nothing is written for it
after its RST_STREAM. -/
structure Lifecycle (t : List H2Event) : Prop where
  surfaced : (surfacedIds t).Nodup
  responded : (respondedIds t).Nodup
  reset : ∀ a id, a ++ [.responded id] <+: t → id ∉ resetIds a

/-- The client opens no stream again that was answered or that it has reset, and it resets no
stream whose request is complete and not answered yet. -/
structure Courteous (t : List H2Event) : Prop where
  headers : ∀ a id, a ++ [.headers id] <+: t → id ∉ respondedIds a ∧ id ∉ resetIds a
  reset : ∀ a id, a ++ [.reset id] <+: t → id ∈ surfacedIds a → id ∈ respondedIds a

theorem Courteous.mono {t t' : List H2Event} (h : Courteous t') (hp : t <+: t') : Courteous t where
  headers a id ha := h.headers a id (ha.trans hp)
  reset a id ha := h.reset a id (ha.trans hp)

variable {H : Hpack}

/-- What a run keeps: `owed` are the streams whose requests were surfaced and wait for an answer. -/
structure Tracked (t : List H2Event) (s : H2Server H) (owed : List UInt32) : Prop where
  lifecycle : Lifecycle t
  closed : ∀ id, id ∈ respondedIds t ∨ id ∈ resetIds t → s.streams.lookup id = none
  dispatched : ∀ id ∈ surfacedIds t,
    id ∈ respondedIds t ∨ id ∈ resetIds t ∨ s.wasDispatched id = true
  nodup : owed.Nodup
  owed : ∀ id ∈ owed, id ∈ surfacedIds t ∧ id ∉ respondedIds t ∧ id ∉ resetIds t

theorem Lifecycle.snoc {t : List H2Event} {e : H2Event} (h : Lifecycle t)
    (hs : ∀ req, e = .surfaced req → req.streamId ∉ surfacedIds t)
    (hr : ∀ id, e = .responded id → id ∉ respondedIds t ∧ id ∉ resetIds t) :
    Lifecycle (t ++ [e]) where
  surfaced := by
    rw [surfacedIds_append]
    cases e with
    | surfaced req =>
      have := h.surfaced.concat (hs req rfl)
      rwa [List.concat_eq_append] at this
    | headers | reset | responded => simpa using h.surfaced
  responded := by
    rw [respondedIds_append]
    cases e with
    | responded id =>
      have := h.responded.concat (hr id rfl).1
      rwa [List.concat_eq_append] at this
    | headers | reset | surfaced => simpa using h.responded
  reset a id ha := by
    rcases List.prefix_concat_iff.mp ha with he | ha
    · obtain ⟨rfl, hlast⟩ := List.append_inj' he rfl
      exact (hr id (List.singleton_inj.mp hlast).symm).2
    · exact h.reset a id ha

namespace Tracked

variable {t : List H2Event} {s s' : H2Server H} {owed : List UInt32} {id : UInt32}

theorem congr (h : Tracked t s owed) (hs : s'.streams = s.streams) : Tracked t s' owed where
  lifecycle := h.lifecycle
  closed id hid := by
    rw [hs]
    exact h.closed id hid
  dispatched id hid := by
    have := h.dispatched id hid
    rwa [H2Server.wasDispatched, ← hs] at this
  nodup := h.nodup
  owed := h.owed

theorem headers (h : Tracked t s owed) (id : UInt32) : Tracked (t ++ [.headers id]) s owed where
  lifecycle := h.lifecycle.snoc (by simp) (by simp)
  closed j hj := h.closed j (by simpa using hj)
  dispatched j hj := by simpa using h.dispatched j (by simpa using hj)
  nodup := h.nodup
  owed j hj := by simpa using h.owed j hj

theorem reset (h : Tracked t s owed) (hc : Courteous (t ++ [.reset id]))
    (hs : s'.streams = s.streams.erase id) : Tracked (t ++ [.reset id]) s' owed where
  lifecycle := h.lifecycle.snoc (by simp) (by simp)
  closed j hj := by
    rw [hs]
    by_cases he : j = id
    · rw [he, AList.lookup_erase]
    · rw [AList.lookup_erase_ne he]
      exact h.closed j (by simpa [he] using hj)
  dispatched j hj := by
    by_cases he : j = id
    · exact Or.inr (Or.inl (by simp [he]))
    · have hold := h.dispatched j (by simpa using hj)
      have hsame : s'.wasDispatched j = s.wasDispatched j := by
        rw [H2Server.wasDispatched, hs, AList.lookup_erase_ne he, H2Server.wasDispatched]
      simpa [he, hsame] using hold
  nodup := h.nodup
  owed j hj := by
    obtain ⟨h1, h2, h3⟩ := h.owed j hj
    have hne : j ≠ id := by
      rintro rfl
      exact h2 (hc.reset t j (List.prefix_refl _) h1)
    simpa [hne] using And.intro h1 (And.intro h2 h3)

/-- A step on a stream that was neither answered nor reset. -/
theorem stream (h : Tracked t s owed) (hopen : id ∉ respondedIds t ∧ id ∉ resetIds t)
    (he : H2Server.StreamEffect s s' id (s.wasDispatched id)) :
    Tracked (t ++ (s'.ready.drop s.ready.length).map .surfaced) s'
      (owed ++ surfacedIds ((s'.ready.drop s.ready.length).map .surfaced)) := by
  have hclosed : (∀ j, j ≠ id → s'.streams.lookup j = s.streams.lookup j) →
      ∀ j, j ∈ respondedIds t ∨ j ∈ resetIds t → s'.streams.lookup j = none := by
    intro hothers j hj
    have hne : j ≠ id := by
      rintro rfl
      exact hj.elim hopen.1 hopen.2
    rw [hothers j hne]
    exact h.closed j hj
  cases he with
  | kept new hl hd hothers hready =>
    rw [hready, List.drop_length]
    simp only [List.map_nil, List.append_nil, surfacedIds_nil]
    refine ⟨h.lifecycle, hclosed hothers, ?_, h.nodup, h.owed⟩
    intro j hj
    have := h.dispatched j hj
    by_cases hne : j = id
    · rw [H2Server.wasDispatched, hne, hl]
      rw [hne, ← hd] at this
      simpa using this
    · rwa [H2Server.wasDispatched, hothers j hne]
  | surfaced new req hl hold hd hothers hid hready hf =>
    have hfresh : id ∉ surfacedIds t := by
      intro hm
      rcases h.dispatched id hm with hm | hm | hm
      · exact hopen.1 hm
      · exact hopen.2 hm
      · rw [hold] at hm
        simp at hm
    have hids : surfacedIds ([req].map .surfaced) = [id] := by simp [hid]
    have hnone : respondedIds ([req].map H2Event.surfaced) = [] ∧
        resetIds ([req].map H2Event.surfaced) = [] := by simp
    rw [hready, List.drop_left' rfl, hids]
    refine ⟨?_, ?_, ?_, ?_, ?_⟩
    · refine h.lifecycle.snoc ?_ (by simp)
      intro req' he
      obtain rfl := H2Event.surfaced.inj he
      rwa [hid]
    · intro j hj
      rw [respondedIds_append, resetIds_append, hnone.1, hnone.2, List.append_nil,
        List.append_nil] at hj
      exact hclosed hothers j hj
    · intro j hj
      rw [respondedIds_append, resetIds_append, hnone.1, hnone.2, List.append_nil, List.append_nil]
      by_cases hne : j = id
      · exact Or.inr (Or.inr (by rw [H2Server.wasDispatched, hne, hl]; exact hd))
      · rw [surfacedIds_append, hids] at hj
        have := h.dispatched j (by simpa [hne] using hj)
        rwa [H2Server.wasDispatched, hothers j hne]
    · rw [← List.concat_eq_append]
      exact h.nodup.concat fun hm => hfresh (h.owed id hm).1
    · intro j hj
      rw [surfacedIds_append, respondedIds_append, resetIds_append, hnone.1, hnone.2, hids,
        List.append_nil, List.append_nil]
      rcases List.mem_append.mp hj with hj | hj
      · obtain ⟨h1, h2, h3⟩ := h.owed j hj
        exact ⟨List.mem_append_left _ h1, h2, h3⟩
      · obtain rfl := List.mem_singleton.mp hj
        exact ⟨List.mem_append_right _ hj, hopen⟩

/-- One iteration of `parse_frames`. -/
theorem frame (h : Tracked t s owed) {o : List H2Event}
    (hstep : (H2Server.frameTracer H).step s = some (o, s')) (hc : Courteous (t ++ o)) :
    Tracked (t ++ o) s' (owed ++ surfacedIds o) := by
  obtain ⟨rfl, o', hstep⟩ := Machine.observe_step _ |>.mp hstep
  obtain ⟨-, ⟨hnext, rfl⟩ | ⟨f, rest, hnext, heffect⟩⟩ := H2Server.frameStep_effect hstep
  · simpa [H2Server.frameEvents, hnext] using
      (h.congr rfl : Tracked t ({ s with failed := true } : H2Server H) owed)
  · have hev : H2Server.frameEvents s s' =
        s.frameOpening f ++ (s'.ready.drop s.ready.length).map .surfaced := by
      rw [H2Server.frameEvents, hnext]
    have hopening : surfacedIds (s.frameOpening f) = [] := by
      unfold H2Server.frameOpening
      split_ifs <;> rfl
    rw [hev, surfacedIds_append, hopening, List.nil_append, ← List.append_assoc]
    rw [hev, ← List.append_assoc] at hc
    cases heffect with
    | quiet hr hstreams hready =>
      rw [hready, List.drop_length]
      simp only [List.map_nil, List.append_nil, surfacedIds_nil]
      unfold H2Server.frameOpening
      split_ifs with hcont hheaders hreset
      · simpa using h.congr hstreams
      · exact (h.headers f.streamId).congr hstreams
      · exact absurd hreset (hr (by simpa using hcont))
      · simpa using h.congr hstreams
    | reset hcont hty hstreams hready =>
      have hne : tRstStream ≠ tHeaders := by decide
      have hopen : s.frameOpening f = [.reset f.streamId] := by
        simp [H2Server.frameOpening, hcont, hty, hne]
      rw [hready, List.drop_length] at hc ⊢
      simp only [List.map_nil, List.append_nil, surfacedIds_nil, hopen] at hc ⊢
      exact h.reset hc hstreams
    | stream hty hknown he =>
      have hlive : s.streams.lookup f.streamId ≠ none →
          f.streamId ∉ respondedIds t ∧ f.streamId ∉ resetIds t := fun hl =>
        ⟨fun hm => hl (h.closed _ (Or.inl hm)), fun hm => hl (h.closed _ (Or.inr hm))⟩
      unfold H2Server.frameOpening at hc ⊢
      split_ifs at hc ⊢ with hcont hheaders
      · rw [List.append_nil]
        refine h.stream (hlive fun hl => ?_) he
        rw [(hknown hl).2] at hcont
        simp at hcont
      · refine (h.headers f.streamId).stream ?_ he
        simpa using hc.headers t f.streamId (List.prefix_append _ _)
      · rw [List.append_nil]
        exact h.stream (hlive fun hl => hheaders (hknown hl).1) he

theorem input (h : Tracked t s owed) {data : Bytes} (hc : Courteous (t ++ s.inputEvents data)) :
    Tracked (t ++ s.inputEvents data) (s.onInput data)
      (owed ++ surfacedIds (s.inputEvents data)) := by
  rcases s.onInput_cases data with ⟨hs, -, he, -, -⟩ | ⟨-, s₀, hs, ho, he⟩
  · simpa [he] using h.congr hs
  · rw [ho, he]
    rw [he] at hc
    have hstart : Tracked (t ++ []) s₀ (owed ++ surfacedIds []) := by
      simpa using h.congr (H2Server.frameStart_same hs).1
    refine (H2Server.frameTracer H).run_invariant
      (P := fun o s => Courteous (t ++ o) → Tracked (t ++ o) s (owed ++ surfacedIds o)) (o := [])
      (fun _ => hstart) ?_ hc
    intro o s o' s' hP hstep hc
    rw [← List.append_assoc] at hc
    have := (hP (hc.mono (List.prefix_append _ _))).frame hstep hc
    rwa [List.append_assoc, List.append_assoc, ← surfacedIds_append] at this

theorem respond {a b : List UInt32} (h : Tracked t s (a ++ id :: b))
    (hs : s'.streams = s.streams.erase id) : Tracked (t ++ [.responded id]) s' (a ++ b) := by
  obtain ⟨h1, h2, h3⟩ := h.owed id (by simp)
  have hperm : (id :: (a ++ b)).Nodup := (List.perm_middle.nodup_iff).mp h.nodup
  obtain ⟨hnot, hnodup⟩ := List.nodup_cons.mp hperm
  refine ⟨h.lifecycle.snoc (by simp) ?_, ?_, ?_, hnodup, ?_⟩
  · intro j hj
    obtain rfl := H2Event.responded.inj hj
    exact ⟨h2, h3⟩
  · intro j hj
    rw [hs]
    by_cases he : j = id
    · rw [he, AList.lookup_erase]
    · rw [AList.lookup_erase_ne he]
      exact h.closed j (by simpa [he] using hj)
  · intro j hj
    by_cases he : j = id
    · exact Or.inl (by simp [he])
    · have hold := h.dispatched j (by simpa using hj)
      have hsame : s'.wasDispatched j = s.wasDispatched j := by
        rw [H2Server.wasDispatched, hs, AList.lookup_erase_ne he, H2Server.wasDispatched]
      simpa [he, hsame] using hold
  · intro j hj
    have hne : j ≠ id := by
      rintro rfl
      exact hnot hj
    obtain ⟨h1, h2, h3⟩ := h.owed j (by simpa [hne] using hj)
    simpa [hne] using And.intro h1 (And.intro h2 h3)

/-- The requests of one call, answered or queued one after the other. -/
theorem requests (isBlocked : Str → Bool) {reqs : List H2Request} {f : H2Feed H}
    (h : Tracked t f.server (f.pending ++ reqs.map H2Request.streamId)) :
    Tracked (t ++ (reqs.filter fun req => !isForwarded isBlocked req).map fun req =>
        .responded req.streamId)
      (reqs.foldl (h2Request isBlocked) f).server (reqs.foldl (h2Request isBlocked) f).pending := by
  induction reqs generalizing t f with
  | nil => simpa using h
  | cons req reqs ih =>
    rw [List.foldl_cons]
    rcases h2Verdict_cases isBlocked
        (if f.authority = [] ∧ req.authority ≠ [] then req.authority else f.authority) req with
      ⟨name, contentType, body, hv, hf⟩ | ⟨bytes, hv, hf⟩
    · have hstep : Tracked (t ++ [.responded req.streamId]) (h2Request isBlocked f req).server
          ((h2Request isBlocked f req).pending ++ reqs.map H2Request.streamId) := by
        simp only [h2Request, hv]
        exact h.respond rfl
      have := ih hstep
      simpa [hf] using this
    · have hstep : Tracked t (h2Request isBlocked f req).server
          ((h2Request isBlocked f req).pending ++ reqs.map H2Request.streamId) := by
        simp only [h2Request, hv]
        simpa using h
      have := ih hstep
      simpa [hf] using this

theorem deliver {pending rest : List UInt32} (responses : List UpResponse)
    (h : Tracked t s (pending ++ rest)) :
    Tracked (t ++ (Tls.deliver pending responses).1.map fun d => .responded d.streamId)
      (s.deliverAll (Tls.deliver pending responses).1)
      ((Tls.deliver pending responses).2 ++ rest) := by
  induction responses generalizing pending t s with
  | nil => cases pending <;> simpa [Tls.deliver, H2Server.deliverAll] using h
  | cons resp responses ih =>
    cases pending with
    | nil => simpa [Tls.deliver, H2Server.deliverAll] using h
    | cons streamId pending =>
      have hstep : Tracked (t ++ [.responded streamId]) (s.respond streamId resp.status
          (resp.deliveredTo streamId).contentType resp.body) (pending ++ rest) :=
        Tracked.respond (a := []) h rfl
      have := ih hstep
      simpa [Tls.deliver, H2Server.deliverAll, UpResponse.deliveredTo] using this

end Tracked

theorem foldl_h2Request_ready (isBlocked : Str → Bool) (reqs : List H2Request) (f : H2Feed H) :
    (reqs.foldl (h2Request isBlocked) f).server.ready = f.server.ready := by
  induction reqs generalizing f with
  | nil => rfl
  | cons req reqs ih =>
    rw [List.foldl_cons, ih]
    unfold h2Request
    dsimp only
    split <;> rfl

theorem Lifecycle.nil : Lifecycle [] where
  surfaced := List.nodup_nil
  responded := List.nodup_nil
  reset a id ha := by simpa using ha.length_le

/-- What a run keeps of a DoH flow: the streams owed an answer are those queued, and those whose
requests were still on the `ready` list when the connection failed. -/
structure TrackedDoh (t : List H2Event) (d : Doh H) : Prop where
  server : ∀ server, d.h2 = some server →
    Tracked t server (d.pending ++ server.ready.map H2Request.streamId)
  fresh : d.proto ≠ .h2 → t = [] ∧ d.pending = [] ∧ d.h2 = none
  h2 : d.proto = .h2 → d.h2 ≠ none

theorem tracked_fresh : Tracked (H := H) [] {} [] where
  lifecycle := Lifecycle.nil
  closed _ h := by simp at h
  dispatched _ h := by simp at h
  nodup := List.nodup_nil
  owed _ h := by simp at h

namespace TrackedDoh

variable {t : List H2Event} {d d' : Doh H} {isBlocked : Str → Bool} {data : Bytes}

theorem h2Feed {server : H2Server H} (hd : d.h2 = some server) (hp : d.proto = .h2)
    (h : Tracked t server (d.pending ++ server.ready.map H2Request.streamId))
    (hc : Courteous (t ++ (server.inputEvents data ++
      (server.onInput data).answerEvents isBlocked))) :
    TrackedDoh (t ++ (server.inputEvents data ++ (server.onInput data).answerEvents isBlocked))
      (d.h2Feed isBlocked data).2 := by
  rw [← List.append_assoc] at hc ⊢
  have hin := h.input (hc.mono (List.prefix_append _ _))
  rw [List.append_assoc, H2Event.surfacedIds, ← List.map_append, ← H2Server.onInput_ready] at hin
  unfold Doh.h2Feed H2Server.answerEvents
  rw [hd]
  dsimp only
  cases hf : (server.onInput data).failed with
  | true =>
    refine ⟨?_, fun h => absurd hp h, fun _ => by simp⟩
    intro server' hs
    obtain rfl := Option.some.inj hs
    have hout : Tracked (t ++ server.inputEvents data) (server.onInput data).takeOut.2
        (d.pending ++ (server.onInput data).ready.map H2Request.streamId) := hin.congr rfl
    simp only [if_true, List.append_nil]
    exact hout
  | false =>
    refine ⟨?_, fun h => absurd hp h, fun _ => by simp⟩
    intro server' hs
    obtain rfl := Option.some.inj hs
    have hloop : Tracked (t ++ server.inputEvents data)
        (server.onInput data).takeRequests.2
        (d.pending ++ (server.onInput data).ready.map H2Request.streamId) := hin.congr rfl
    have hreqs := Tracked.requests isBlocked
      (f := { server := (server.onInput data).takeRequests.2, authority := d.authority,
              pending := d.pending }) hloop
    have hready := foldl_h2Request_ready isBlocked (server.onInput data).ready
      { server := (server.onInput data).takeRequests.2, authority := d.authority,
        pending := d.pending }
    have hnone : (server.onInput data).takeRequests.2.ready = [] := rfl
    rw [hnone] at hready
    have hout : Tracked _ (H2Server.takeOut _).2 _ := hreqs.congr rfl
    simp only [Bool.false_eq_true, if_false]
    rw [show (server.onInput data).takeRequests.1 = (server.onInput data).ready from rfl]
    have hnil : ∀ s : H2Server H, s.takeOut.2.ready = s.ready := fun _ => rfl
    rw [hnil, hready, List.map_nil, List.append_nil]
    exact hout

private theorem h1Feed_ok {p : Profile} {es : List DnsEmit}
    (h : d.h1Feed p isBlocked data = .ok (es, d')) : ∃ side, d' = { d with toH1Side := side } := by
  unfold Doh.h1Feed at h
  cases hr : d.toH1Side.h1Feed p isBlocked data with
  | error e =>
    rw [hr] at h
    simp [Except.map] at h
  | ok r =>
    rw [hr] at h
    simp only [Except.map, Except.ok.injEq, Prod.mk.injEq] at h
    exact ⟨r.2, h.2.symm⟩

theorem onAppData {p : Profile} {es : List DnsEmit} (h : TrackedDoh t d)
    (happ : d.onAppData p isBlocked data = .ok (es, d'))
    (hc : Courteous (t ++ d.appEvents isBlocked data)) :
    TrackedDoh (t ++ d.appEvents isBlocked data) d' := by
  have hidle : d.proto ≠ .h2 → d'.proto ≠ .h2 → d'.pending = d.pending → d'.h2 = d.h2 →
      TrackedDoh t d' := by
    intro hp hp' hpend hh2
    obtain ⟨ht, hnil, hnone⟩ := h.fresh hp
    refine ⟨?_, fun _ => ⟨ht, hpend.trans hnil, hh2.trans hnone⟩, fun hp => absurd hp hp'⟩
    intro server hs
    rw [hh2, hnone] at hs
    simp at hs
  unfold Doh.onAppData at happ
  cases hp : d.proto with
  | h1 =>
    rw [hp] at happ
    obtain ⟨side, rfl⟩ := h1Feed_ok happ
    simpa [Doh.appEvents, Doh.h2Input, hp] using hidle (by simp [hp]) (by simp [hp]) rfl rfl
  | h2 =>
    obtain ⟨server, hs⟩ := Option.ne_none_iff_exists'.mp (h.h2 hp)
    rw [hp] at happ
    obtain rfl : (d.h2Feed isBlocked data).2 = d' := congrArg Prod.snd (Except.ok.inj happ)
    simp only [Doh.appEvents, Doh.h2Input, hp, hs, Option.map_some] at hc ⊢
    exact h2Feed hs hp (h.server server hs) hc
  | undecided =>
    rw [hp] at happ
    dsimp only at happ
    obtain ⟨ht, hnil, hnone⟩ := h.fresh (by simp [hp])
    cases hx : decideProto (d.appBuf ++ data) with
    | none =>
      rw [hx] at happ
      obtain ⟨-, rfl⟩ := Prod.mk.inj (Except.ok.inj happ)
      simpa [Doh.appEvents, Doh.h2Input, hp, hx] using hidle (by simp [hp]) (by simp) rfl rfl
    | some proto =>
      rw [hx] at happ
      cases proto with
      | undecided =>
        obtain ⟨-, rfl⟩ := Prod.mk.inj (Except.ok.inj happ)
        simpa [Doh.appEvents, Doh.h2Input, hp, hx] using
          hidle (by simp [hp]) (by simp) rfl rfl
      | h1 =>
        obtain ⟨side, rfl⟩ := h1Feed_ok happ
        simpa [Doh.appEvents, Doh.h2Input, hp, hx] using
          hidle (by simp [hp]) (by simp) rfl rfl
      | h2 =>
        have hd' := (congrArg Prod.snd (Except.ok.inj happ)).symm
        change d' = _ at hd'
        rw [hd']
        simp only [Doh.appEvents, Doh.h2Input, hp, hx, if_true] at hc ⊢
        refine h2Feed rfl rfl ?_ hc
        rw [ht]
        simpa [hnil] using tracked_fresh

theorem onUpstreamData (h : TrackedDoh t d) :
    TrackedDoh (t ++ d.upstreamEvents data) (d.onUpstreamData data).2 := by
  unfold Doh.upstreamEvents Doh.deliveries Doh.onUpstreamData
  cases hp : d.proto with
  | undecided => simpa using h
  | h1 => simpa using h
  | h2 =>
    obtain ⟨server, hs⟩ := Option.ne_none_iff_exists'.mp (h.h2 hp)
    have hdeliver := Tracked.deliver (d.up.feed data).1 (h.server server hs)
    simp only [Doh.h2Upstream, hs]
    refine ⟨?_, fun hne => absurd hp hne, fun _ => by simp⟩
    intro server' hs'
    obtain rfl := Option.some.inj hs'
    have hready : ∀ (s : H2Server H) (ds : List Delivery),
        (s.deliverAll ds).takeOut.2.ready = s.ready := by
      intro s ds
      induction ds generalizing s with
      | nil => rfl
      | cons a ds ih => exact ih _
    rw [hready]
    exact hdeliver.congr rfl

end TrackedDoh

/-- The events so far are the first events of the run. -/
theorem runEvents_extends {p : Profile} {ops : List DohOp} {t t' : List H2Event} {d d' : Doh H}
    (hrun : d.runEvents p t ops = .ok (t', d')) : t <+: t' := by
  induction ops generalizing t d with
  | nil =>
    obtain ⟨rfl, -⟩ := Prod.mk.inj (Except.ok.inj hrun)
    exact List.prefix_refl _
  | cons op ops ih =>
    cases op with
    | app isBlocked data =>
      simp only [Doh.runEvents] at hrun
      split at hrun
      · simp at hrun
      · exact (List.prefix_append _ _).trans (ih hrun)
    | upstream data => exact (List.prefix_append _ _).trans (ih hrun)

theorem runEvents_tracked {p : Profile} {ops : List DohOp} {t t' : List H2Event} {d d' : Doh H}
    (h : TrackedDoh t d) (hrun : d.runEvents p t ops = .ok (t', d')) (hc : Courteous t') :
    TrackedDoh t' d' := by
  induction ops generalizing t d with
  | nil =>
    obtain ⟨rfl, rfl⟩ := Prod.mk.inj (Except.ok.inj hrun)
    exact h
  | cons op ops ih =>
    cases op with
    | app isBlocked data =>
      simp only [Doh.runEvents] at hrun
      split at hrun
      · simp at hrun
      · next es d₁ happ => exact ih (h.onAppData happ (hc.mono (runEvents_extends hrun))) hrun
    | upstream data => exact ih h.onUpstreamData hrun

theorem trackedDoh_fresh : TrackedDoh [] ({} : Doh H) where
  server _ h := by simp at h
  fresh _ := ⟨rfl, rfl, rfl⟩
  h2 h := by simp at h

/-- The life of every stream of a run in which the client neither reuses a stream nor resets one
that waits for its answer. -/
theorem doh_h2_lifecycle {p : Profile} {ops : List DohOp} {t : List H2Event} {d : Doh H}
    (hrun : ({} : Doh H).runEvents p [] ops = .ok (t, d)) (hc : Courteous t) : Lifecycle t := by
  have htracked := runEvents_tracked trackedDoh_fresh hrun hc
  cases hs : d.h2 with
  | some server => exact (htracked.server server hs).lifecycle
  | none =>
    have hp : d.proto ≠ .h2 := fun hp => htracked.h2 hp hs
    rw [(htracked.fresh hp).1]
    exact Lifecycle.nil

theorem Courteous.snoc {t : List H2Event} {e : H2Event} (h : Courteous t)
    (hh : ∀ id, e = .headers id → id ∉ respondedIds t ∧ id ∉ resetIds t)
    (hr : ∀ id, e = .reset id → id ∈ surfacedIds t → id ∈ respondedIds t) :
    Courteous (t ++ [e]) where
  headers a id ha := by
    rcases List.prefix_concat_iff.mp ha with he | ha
    · obtain ⟨rfl, hlast⟩ := List.append_inj' he rfl
      exact hh id (List.singleton_inj.mp hlast).symm
    · exact h.headers a id ha
  reset a id ha := by
    rcases List.prefix_concat_iff.mp ha with he | ha
    · obtain ⟨rfl, hlast⟩ := List.append_inj' he rfl
      exact hr id (List.singleton_inj.mp hlast).symm
    · exact h.reset a id ha

private theorem runEvents_of_map (ops : List DohOp) (t : List H2Event)
    (h : (({} : Doh literalHpack).runEvents .release [] ops).map (·.1) = .ok t) :
    ∃ d, ({} : Doh literalHpack).runEvents .release [] ops = .ok (t, d) := by
  cases hr : ({} : Doh literalHpack).runEvents .release [] ops with
  | error e =>
    rw [hr] at h
    simp [Except.map] at h
  | ok r =>
    rw [hr] at h
    obtain rfl : r.1 = t := by simpa [Except.map] using h
    exact ⟨r.2, rfl⟩

theorem doh_h2_lifecycle_org :
    ∃ t d, ({} : Doh literalHpack).runEvents .release []
        [.app (fun _ => false) orgFrames, .upstream orgResponse] = .ok (t, d) ∧
      Lifecycle t := by
  obtain ⟨d, hd⟩ := runEvents_of_map [.app (fun _ => false) orgFrames, .upstream orgResponse]
    [.headers 1, .surfaced orgRequest, .responded 1] (by decide +kernel)
  refine ⟨_, d, hd, doh_h2_lifecycle hd ?_⟩
  have hnil : Courteous [] := ⟨fun a id ha => by simpa using ha.length_le,
    fun a id ha => by simpa using ha.length_le⟩
  exact ((hnil.snoc (e := .headers 1) (by simp) (by simp)).snoc (e := .surfaced orgRequest)
    (by simp) (by simp)).snoc (e := .responded 1) (by simp) (by simp)

/-- A stream that was reset while its query was with the resolver is answered all the same. -/
theorem doh_h2_answers_after_reset :
    ∃ t d, ({} : Doh literalHpack).runEvents .release []
        [.app (fun _ => false) (orgFrames ++ frameBytes tRstStream 0 1 [0, 0, 0, 8]),
          .upstream orgResponse] = .ok (t, d) ∧
      ¬ Lifecycle t := by
  obtain ⟨d, hd⟩ := runEvents_of_map
    [.app (fun _ => false) (orgFrames ++ frameBytes tRstStream 0 1 [0, 0, 0, 8]),
      .upstream orgResponse]
    [.headers 1, .surfaced orgRequest, .reset 1, .responded 1] (by decide +kernel)
  refine ⟨_, d, hd, fun h => ?_⟩
  exact h.reset [.headers 1, .surfaced orgRequest, .reset 1] 1 (List.prefix_refl _) (by simp)

end Adwarden.Tls

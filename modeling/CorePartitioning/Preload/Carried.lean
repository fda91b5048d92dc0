import CorePartitioning.Preload.IpcProgress
import CorePartitioning.Preload.ThreadLife

/-!
# ld_preload.c — the types of the requests under way

Whatever is under way in an entry's exchange, request or response, has the
type of some request that was sent. So a property of the types that holds
of what the readers send holds of all that is under way, except while a
writer ends the entry's thread.
-/

namespace CorePartitioning.Preload

namespace Machine

variable {Tid : Type} {m m' : Machine Tid} {ann : Tid → Ann} {t : Tid} {P : BitVec 32 → Prop}

/-- All that is under way in an exchange has a type in `P`. -/
structure Carries (P : BitVec 32 → Prop) (ch : Channel Tid) : Prop where
  message : ch.exchange.request = true ∨ ch.exchange.response = true →
    P ch.exchange.message.request_type
  sent : ∀ a ∈ ch.exchange.hist.sent, P a.request_type
  send_data : ch.exchange.phase ≠ .waiting → P ch.send_data.request_type
  reply : ∀ r, ch.exchange.phase = .replying r → P r.request_type

theorem carries_new : Carries P ({} : Channel Tid) :=
  ⟨by simp [Ipc.Exchange.init], nofun, fun h => absurd rfl h, nofun⟩

/-- All that is under way to and from the entries' threads has a type in `P`,
unless a thread is being ended. -/
def Carried (P : BitVec 32 → Prop) (m : Machine Tid) (ann : Tid → Ann) : Prop :=
  ∀ p ∈ m.world.table.ptrs, (∃ t, (ann t).Ends p) ∨ Carries P (m.channel p)

theorem carried_init : Carried P ({} : Machine Tid) fun _ => {} := nofun

variable [DecidableEq Tid]

/-- **One operation of an application thread**: what a reader sends is in `P`. -/
theorem Carried.sem (hc : Carried P m ann) (hm : Tended m ann) {e : Env} {o : Op} {r : o.Res}
    (hp : (ann t).pre o) (ho : m.sem t e o = some (r, m'))
    (hsends : ∀ args q c fd, o = .CPART_send_to_thread args q → (ann t).MayAsk args q c fd →
      c.terminates = false → P args.request_type) :
    Carried P m' (Function.update ann t ((ann t).next o r)) := by
  intro p hmem
  obtain hold | ⟨hnew, -⟩ := ptrs_sem ann (t := t) ho hmem
  · obtain he | hcarries := hc p hold
    · exact .inl (hm.ends_sem hp ho hmem he)
    have hdata : m'.channel p = {} ∨ (m'.channel p).send_data = (m.channel p).send_data := by
      obtain ⟨-, -, hdata, -⟩ | ⟨-, -, hnew⟩ | ⟨-, -, -, -, hdata⟩ := life_of_sem ho p
      · exact .inr hdata
      · exact .inl hnew
      · exact .inr hdata
    obtain hnew | hdata := hdata
    · rw [hnew]
      exact .inr carries_new
    obtain ⟨-, hsame⟩ | ⟨-, -, hnew⟩ | ⟨args, rfl, hsend⟩ | ⟨r', -, hrecv⟩ := exchange_of_sem ho p
    · refine .inr ?_
      constructor <;> rw [hsame]
      · exact hcarries.message
      · exact hcarries.sent
      · rw [hdata]
        exact hcarries.send_data
      · exact hcarries.reply
    · rw [hnew]
      exact .inr carries_new
    · obtain ⟨c, fd, hask⟩ := hp
      by_cases hterm : c.terminates = true
      · -- from now on the caller ends the thread
        refine .inl ⟨t, ?_⟩
        rw [Function.update_self]
        exact ⟨hask.mode.trans (if_pos hterm), ⟨fd, hask.entry⟩, nofun⟩
      · have hargs := hsends args p c fd rfl hask (by simpa using hterm)
        refine .inr ?_
        constructor <;> rw [(Ipc.Exchange.send_to_thread_eq_some hsend).2.2]
        · exact fun _ => hargs
        · intro a hmem'
          rcases List.mem_append.mp hmem' with hmem' | hmem'
          · exact hcarries.sent a hmem'
          · rw [List.mem_singleton.mp hmem']
            exact hargs
        · rw [hdata]
          exact hcarries.send_data
        · exact hcarries.reply
    · obtain ⟨k, -, hresponse, heq⟩ := Ipc.Exchange.recv_from_thread_eq_some hrecv
      refine .inr ?_
      constructor <;> rw [(Prod.mk.inj heq).2]
      · exact fun _ => hcarries.message (.inr hresponse)
      · exact hcarries.sent
      · rw [hdata]
        exact hcarries.send_data
      · exact hcarries.reply
  · rw [hnew]
    exact .inr carries_new

omit [DecidableEq Tid] in
/-- **One step of an entry's thread**: a response has its request's type. -/
theorem Carries.serves {b : ThreadStep} (h : m.Serves b m') {q : Ptr}
    (hwaiting : (m.channel q).life = .created → (m.channel q).exchange.phase = .waiting)
    (hcarries : Carries P (m.channel q)) : Carries P (m'.channel q) := by
  have hset : ∀ {p : Ptr} {ch : Channel Tid},
      (p = q → Carries P (m.channel p) → Carries P ch) → Carries P ((m.set p ch).channel q) := by
    intro p ch hp
    apply set_channel_of
    · rintro rfl
      exact hp rfl hcarries
    · exact fun _ => hcarries
  cases h with
  | unfound _ _ hl hs =>
      exact hset fun _ hp => ⟨hp.message, hp.sent, hp.send_data, hp.reply⟩
  | start _ _ hl hs =>
      refine hset fun hpq hp => ⟨hp.message, hp.sent, fun hphase => ?_, hp.reply⟩
      subst hpq
      exact absurd (hwaiting hl) hphase
  | recv_from_app hl hx =>
      obtain ⟨-, hrequest, rfl⟩ := Ipc.Exchange.recv_from_app_eq_some hx
      refine hset fun _ hp => ⟨fun _ => hp.message (.inl hrequest), hp.sent, fun _ => ?_, nofun⟩
      exact hp.message (.inl hrequest)
  | switch o hl ha =>
      obtain ⟨hphase, rfl⟩ := Ipc.Exchange.produce_eq_some ha
      rw [perform_channel]
      have hserving : ∀ ch : Channel Tid, ch.exchange.phase = .serving →
          ch.exchange.phase ≠ .waiting := by
        intro ch heq
        rw [heq]
        nofun
      refine hset fun _ hp => ⟨hp.message, hp.sent, fun _ => hp.send_data (hserving _ hphase), ?_⟩
      rintro r ⟨⟩
      rw [Ipc.serve_request_type]
      exact hp.send_data (hserving _ hphase)
  | send_to_app hl ha =>
      obtain ⟨r, hr, -, rfl⟩ := Ipc.Exchange.send_to_app_eq_some ha
      exact hset fun _ hp => ⟨fun _ => hp.reply r hr, hp.sent, fun h => absurd rfl h, nofun⟩

theorem Carried.serves {b : ThreadStep} (hc : Carried P m ann) (hm : Tended m ann)
    (h : m.Serves b m') : Carried P m' ann := by
  intro q hq
  rw [h.world] at hq
  exact (hc q hq).imp_right (Carries.serves h fun hl => hm.waiting q (.inr hl))

/-- A thread enters or leaves a wrapper. -/
theorem Carried.update (hc : Carried P m ann) {h : Ann} (ht : (ann t).Quiet) :
    Carried P m (Function.update ann t h) := by
  intro p hp
  refine (hc p hp).imp_left ?_
  rintro ⟨u, hu⟩
  refine ⟨u, ?_⟩
  have hut : u ≠ t := by
    rintro rfl
    exact ht.mode_ne hu.mode
  rwa [Function.update_of_ne hut]

end Machine

end CorePartitioning.Preload

import AetherLink.Core.Listen
import AetherLink.Proofs.Agreement

set_option autoImplicit false

/-! # Which connections are a session's data streams

The receiver takes connections in the order in which they reach its listener (`Listening.InOrder`).
So the data streams of a session are of that session exactly when no connection of another one gets
in between. -/

namespace AetherLink

namespace Listening

/-! ## Which connections get a slot -/

/-- The first connection is the control stream, and the slots go to the next ones in order of
    arrival, whoever they are from. -/
structure InOrder (l : Listening) : Prop where
  control_eq : 0 < l.taken → l.control = l.arrived[0]?.bind Connection.hello?
  taken_le : l.taken ≤ l.arrived.length
  mem_streams : ∀ k, k ∈ l.streams ↔
    0 < k ∧ k < l.taken ∧ ∃ h, l.arrived[k]? = some (.hello h)
  started : l.receiver ≠ .awaitingHello → 0 < l.taken
  fresh : l.receiver = .awaitingHello → l.taken = 0

theorem inOrder_init : init.InOrder where
  control_eq := by simp [init]
  taken_le := Nat.le_refl 0
  mem_streams := by simp [init]
  started := by simp [init]
  fresh := fun _ => rfl

theorem sessionStep_eq {c : Parties} {l l' : Listening} {act : SessionAct}
    (h : l.sessionStep c act = some l') : ∃ accept totalBytes s s',
      l.receiver = .running accept totalBytes s ∧
      l' = { l with receiver := .running accept totalBytes s' } := by
  unfold sessionStep at h
  split at h
  · next accept totalBytes s hs =>
      obtain ⟨s', -, rfl⟩ := Option.map_eq_some_iff.1 h
      exact ⟨accept, totalBytes, s, s', hs, rfl⟩
  · cases h

theorem InOrder.sessionStep {c : Parties} {l l' : Listening} {act : SessionAct} (h : l.InOrder)
    (hstep : l.sessionStep c act = some l') : l'.InOrder := by
  obtain ⟨accept, totalBytes, s, s', hs, rfl⟩ := sessionStep_eq hstep
  exact ⟨h.control_eq, h.taken_le, h.mem_streams, fun _ => h.started (by simp [hs]), by simp⟩

/-- The answer to an offer never waits for a `Hello`. -/
theorem onOffer_ne_awaitingHello (c : Parties) (streamCount : UInt32) (ios : List EntryIo)
    (written : Bool) (body : Body) :
    Receiver.onOffer c streamCount ios written body ≠ .awaitingHello := by
  cases body with
  | offer o =>
      rw [Receiver.onOffer]
      split
      · simp
      · split
        · simp
        · simp
  | _ => simp [Receiver.onOffer, Receiver.unexpected]

theorem onControl_ne_awaitingHello (config : Config) (told : Bool) (conn : Connection) :
    conn.onControl config told ≠ .awaitingHello := by
  cases conn with
  | hello h =>
      simp only [Connection.onControl, Hello.body, Receiver.onHello]
      split
      · simp
      · split
        · simp
        · simp
  | other variant => simp [Connection.onControl]
  | fails error => simp [Connection.onControl]

theorem hello?_eq_some {conn : Connection} {h : Hello} : conn.hello? = some h ↔ conn = .hello h := by
  cases conn with
  | hello g => simp [Connection.hello?]
  | other variant => simp [Connection.hello?]
  | fails error => simp [Connection.hello?]

/-- A new arrival is behind everything that has been taken. -/
theorem InOrder.connect {l : Listening} (h : l.InOrder) (conn : Connection) :
    InOrder { l with arrived := l.arrived ++ [conn] } where
  control_eq := fun hpos => by
    have hlt : 0 < l.arrived.length := lt_of_lt_of_le hpos h.taken_le
    rw [List.getElem?_append_left hlt]
    exact h.control_eq hpos
  taken_le := by
    have := h.taken_le
    simp only [List.length_append, List.length_singleton]
    omega
  mem_streams := fun k => by
    rw [h.mem_streams]
    constructor
    · rintro ⟨hpos, hlt, hk⟩
      rw [← List.getElem?_append_left (lt_of_lt_of_le hlt h.taken_le)] at hk
      exact ⟨hpos, hlt, hk⟩
    · rintro ⟨hpos, hlt, hk⟩
      rw [List.getElem?_append_left (lt_of_lt_of_le hlt h.taken_le)] at hk
      exact ⟨hpos, hlt, hk⟩
  started := h.started
  fresh := h.fresh

/-- The next data stream is the oldest connection that waits. -/
theorem InOrder.take {c : Parties} {l l' : Listening} (h : l.InOrder)
    (hstep : l.step c .take = some l') : l'.InOrder := by
  rw [Listening.step] at hstep
  split at hstep
  · cases hstep
  next conn hconn =>
  obtain ⟨l₁, hl₁, rfl⟩ := Option.map_eq_some_iff.1 hstep
  obtain ⟨accept, totalBytes, s, s', hs, rfl⟩ := sessionStep_eq hl₁
  have hpos := h.started (by simp [hs])
  have hlt : l.taken < l.arrived.length := (List.getElem?_eq_some_iff.1 hconn).1
  refine ⟨fun _ => h.control_eq hpos, hlt, fun k => ?_, fun _ => Nat.succ_pos _, by simp⟩
  simp only [List.mem_append, h.mem_streams, Option.mem_toList, Option.map_eq_some_iff,
    hello?_eq_some]
  constructor
  · rintro (⟨hk, hklt, hkhello⟩ | ⟨g, hg, rfl⟩)
    · exact ⟨hk, by omega, hkhello⟩
    · exact ⟨hpos, by omega, g, by rw [hconn, hg]⟩
  · rintro ⟨hk, hklt, g, hg⟩
    by_cases hlast : k = l.taken
    · subst hlast
      rw [hconn, Option.some.injEq] at hg
      exact Or.inr ⟨g, hg, rfl⟩
    · exact Or.inl ⟨hk, by omega, g, hg⟩

theorem InOrder.step {c : Parties} {l l' : Listening} {a : ListenAct} (h : l.InOrder)
    (hstep : l.step c a = some l') : l'.InOrder := by
  cases a with
  | connect conn =>
      rw [Listening.step, Option.some.injEq] at hstep
      exact hstep ▸ h.connect conn
  | control told =>
      rw [Listening.step] at hstep
      split at hstep
      · next conn hwait hconn =>
          rw [Option.some.injEq] at hstep
          subst hstep
          have hzero := h.fresh hwait
          rw [hzero] at hconn
          have hne := onControl_ne_awaitingHello c.receiverConfig told conn
          refine ⟨fun _ => by rw [hconn]; rfl, ?_, fun k => ?_, fun _ => Nat.succ_pos _,
            fun hr => (hne hr).elim⟩
          · rw [hzero]
            exact (List.getElem?_eq_some_iff.1 hconn).1
          · -- no data stream has been taken before the control stream
            rw [h.mem_streams, hzero]
            dsimp only
            omega
      · cases hstep
  | offer body ios written =>
      rw [Listening.step] at hstep
      split at hstep
      · next streamCount hwait =>
          split at hstep
          · rw [Option.some.injEq] at hstep
            subst hstep
            have hpos := h.started (by simp [hwait])
            have hne := onOffer_ne_awaitingHello c streamCount ios written body
            exact ⟨h.control_eq, h.taken_le, h.mem_streams, fun _ => hpos, fun hr => (hne hr).elim⟩
          · cases hstep
      · cases hstep
  | lost error =>
      rw [Listening.step] at hstep
      split at hstep
      · next streamCount hwait =>
          rw [Option.some.injEq] at hstep
          subst hstep
          have hpos := h.started (by simp [hwait])
          exact ⟨h.control_eq, h.taken_le, h.mem_streams, fun _ => hpos, by simp⟩
      · cases hstep
  | take => exact h.take hstep
  | bytes k bs =>
      rw [Listening.step] at hstep
      split at hstep
      · cases hstep
      · exact h.sessionStep hstep
  | ends k how =>
      rw [Listening.step] at hstep
      split at hstep
      · cases hstep
      · exact h.sessionStep hstep
  | session act =>
      cases act with
      | worker i io => exact h.sessionStep hstep
      | join order => exact h.sessionStep hstep
      | main io => exact h.sessionStep hstep
      | deliver i bs => cases hstep
      | close i how => cases hstep
      | accept => cases hstep
      | refuse error => cases hstep

theorem inOrder_of_runs {c : Parties} {acts : List ListenAct} {l : Listening}
    (h : init.runs c acts = some l) : l.InOrder :=
  Run.invariant (fun _ _ _ hl hstep => hl.step hstep) inOrder_init h

/-- Only a connection that arrives is added to the arrived ones. -/
theorem arrived_of_step {c : Parties} {l l' : Listening} {a : ListenAct}
    (h : l.step c a = some l') : l'.arrived = l.arrived ++ arrivals [a] := by
  have hsession {act : SessionAct} {l₁ : Listening} (hl₁ : l.sessionStep c act = some l₁) :
      l₁.arrived = l.arrived ++ [] := by
    obtain ⟨accept, totalBytes, s, s', -, rfl⟩ := sessionStep_eq hl₁
    exact (List.append_nil _).symm
  cases a with
  | connect conn =>
      rw [Listening.step, Option.some.injEq] at h
      exact h ▸ rfl
  | control told =>
      rw [Listening.step] at h
      split at h
      · rw [Option.some.injEq] at h
        exact h ▸ (List.append_nil _).symm
      · cases h
  | offer body ios written =>
      rw [Listening.step] at h
      split at h
      · split at h
        · rw [Option.some.injEq] at h
          exact h ▸ (List.append_nil _).symm
        · cases h
      · cases h
  | lost error =>
      rw [Listening.step] at h
      split at h
      · rw [Option.some.injEq] at h
        exact h ▸ (List.append_nil _).symm
      · cases h
  | take =>
      rw [Listening.step] at h
      split at h
      · cases h
      · obtain ⟨l₁, hl₁, rfl⟩ := Option.map_eq_some_iff.1 h
        have hsame := hsession hl₁
        exact hsame
  | bytes k bs =>
      rw [Listening.step] at h
      split at h
      · cases h
      · exact hsession h
  | ends k how =>
      rw [Listening.step] at h
      split at h
      · cases h
      · exact hsession h
  | session act =>
      cases act with
      | worker i io => exact hsession h
      | join order => exact hsession h
      | main io => exact hsession h
      | deliver i bs => cases h
      | close i how => cases h
      | accept => cases h
      | refuse error => cases h

theorem arrived_of_runs {c : Parties} {acts : List ListenAct} {l l' : Listening}
    (h : l.runs c acts = some l') : l'.arrived = l.arrived ++ arrivals acts := by
  induction acts generalizing l with
  | nil =>
      unfold runs at h
      rw [Run.runs_nil, Option.some.injEq] at h
      rw [h]
      simp [arrivals]
  | cons a acts ih =>
      obtain ⟨m, hm, hrest⟩ := Run.runs_cons_some h
      rw [ih hrest, arrived_of_step hm, List.append_assoc]
      congr 1
      simp only [arrivals, ← List.filterMap_append, List.singleton_append]

end Listening

/-- **When data streams belong to their session**: in every state of every run, exactly when no
    connection taken since the control stream opens with the `Hello` of another session. -/
theorem data_streams_belong_iff {c : Parties} {acts : List ListenAct} {l : Listening}
    (h : Listening.init.runs c acts = some l) :
    l.Belongs c ↔ ∀ k hello, 0 < k → k < l.taken → (arrivals acts)[k]? = some (.hello hello) →
      ∃ g, (arrivals acts)[0]? = some (.hello g) ∧ hello.SameSession g := by
  have horder := Listening.inOrder_of_runs h
  have harrived : l.arrived = arrivals acts := Listening.arrived_of_runs h
  rw [← harrived]
  constructor
  · intro hbelongs k hello hk hlt hhello
    obtain ⟨h', g, hh', hg, hsame⟩ := hbelongs.slots k ((horder.mem_streams k).2 ⟨hk, hlt, _, hhello⟩)
    obtain rfl : hello = h' := by simpa [hhello] using hh'
    rw [horder.control_eq (by omega), Option.bind_eq_some_iff] at hg
    obtain ⟨conn, hconn, hg⟩ := hg
    obtain rfl := Listening.hello?_eq_some.1 hg
    exact ⟨g, hconn, hsame⟩
  · intro hall
    have hslots : ∀ k ∈ l.streams, l.OfSession k := by
      intro k hk
      obtain ⟨hpos, hlt, hello, hhello⟩ := (horder.mem_streams k).1 hk
      obtain ⟨g, hg, hsame⟩ := hall k hello hpos hlt hhello
      refine ⟨hello, g, hhello, ?_, hsame⟩
      rw [horder.control_eq (by omega), hg]
      rfl
    refine ⟨hslots, fun k bs l' hstep => hslots k ?_⟩
    rw [Listening.step] at hstep
    split at hstep
    · cases hstep
    · next i hi => exact List.isSome_idxOf?.1 (by rw [hi]; rfl)

/-- Hellos of two senders that each want one data stream. -/
def helloOf (id : UInt8) : Hello :=
  { protocolVersion := PROTOCOL_VERSION.toUInt32, sessionId := List.replicate 16 id,
    streamCount := 1 }

/-- A session of sender 1 over an empty offer, whose data stream is the connection `conn`. -/
def sessionOver (conn : Connection) : List ListenAct :=
  [.connect (.hello (helloOf 1)), .control true,
    .offer (.offer { chunkSize := 65536, files := [] }) [] true, .connect conn, .take]

theorem data_streams_belong_iff_ownStream :
    ∃ l, Listening.init.runs oneByteParties (sessionOver (.hello (helloOf 1))) = some l ∧
      l.streams = [1] ∧ l.Belongs oneByteParties := by
  have hsome : (Listening.init.runs oneByteParties (sessionOver (.hello (helloOf 1)))).any
      (fun l => l.streams == [1]) = true := by decide +kernel
  obtain ⟨l, hl, hstreams⟩ := (Option.any_eq_true _ _).1 hsome
  refine ⟨l, hl, beq_iff_eq.1 hstreams, (data_streams_belong_iff hl).2 fun k hello hk _ hhello => ?_⟩
  have hall : arrivals (sessionOver (.hello (helloOf 1)))
      = [.hello (helloOf 1), .hello (helloOf 1)] := by decide +kernel
  rw [hall] at hhello ⊢
  obtain ⟨hlt, hget⟩ := List.getElem?_eq_some_iff.1 hhello
  obtain rfl : k = 1 := by simp at hlt; omega
  cases hget
  exact ⟨helloOf 1, rfl, by decide⟩

/-- Connection 1 is of sender 2, has the only slot of sender 1's session, and can send to it. -/
def Listening.tookForeign (l : Listening) : Bool :=
  l.streams == [1] && l.arrived[1]? == some (.hello (helloOf 2)) &&
    l.control == some (helloOf 1) && (l.step oneByteParties (.bytes 1 [0xAE])).isSome

/-- Sender 2 connects before sender 1 has opened its data stream: its control connection takes the
    slot, and what it sends there goes to the session's worker. -/
theorem foreign_connection_takes_slot :
    ∃ l l', Listening.init.runs oneByteParties (sessionOver (.hello (helloOf 2))) = some l ∧
      l.step oneByteParties (.bytes 1 [0xAE]) = some l' ∧ ¬ l.OfSession 1 ∧
      ¬ l.Belongs oneByteParties := by
  have hany : (Listening.init.runs oneByteParties (sessionOver (.hello (helloOf 2)))).any
      Listening.tookForeign = true := by decide +kernel
  obtain ⟨l, hl, htook⟩ := (Option.any_eq_true _ _).1 hany
  simp only [Listening.tookForeign, Bool.and_eq_true, beq_iff_eq] at htook
  obtain ⟨⟨⟨hstreams, harrived⟩, hcontrol⟩, hbytes⟩ := htook
  obtain ⟨l', hl'⟩ := Option.isSome_iff_exists.1 hbytes
  have hnot : ¬ l.OfSession 1 := by
    rintro ⟨h, g, hh, hg, hsame⟩
    obtain rfl : helloOf 2 = h := by simpa [harrived] using hh
    obtain rfl : helloOf 1 = g := by simpa [hcontrol] using hg
    exact absurd hsame (by decide)
  exact ⟨l, l', hl, hl', hnot, fun hb => hnot (hb.slots 1 (by rw [hstreams]; simp))⟩

end AetherLink

import VersionAlignment.Source.Session

/-!
# Recorded runs

A session talks to the services and to the clock. What is said is written down as a list of events
when the transport is a recording one, and the session cannot tell the difference. A fetch has two
parts: the access, which ends with a lease or an error, and the listing, which needs a lease.
`Access` and `Listing` say everything that the two parts can do.

## Results

* `access_recording`, `list_recording`: what the two parts of a fetch say and answer.
* `fetch_recording`: a fetch is an access and, if that gives a lease, a listing.
* `fetchAll_eq_turns`: the answers of a run are those of its turns.
-/

set_option autoImplicit false

namespace VersionAlignment

/-- What is said between a session and its transport. -/
inductive Event where
  /-- The clock was read. -/
  | told (now : Int)
  /-- A request was sent, and this came back. -/
  | asked (q : Query) (reply : Except NetworkFailure Answer)

variable {σ : Type}

/-- A transport that writes down what is said. -/
def Transport.recording (t : Transport (StateM σ)) : Transport (StateM (σ × List Event)) where
  now := fun (w, log) =>
    let (now, w) := t.now w
    (now, w, log ++ [.told now])
  send q := fun (w, log) =>
    let (reply, w) := t.send q w
    (reply, w, log ++ [.asked q reply])

/-- Some work has the same result when it is recorded, and says what `Says` allows with that
result. -/
def Recorded {α : Type} (plain : StateM σ α) (recorded : StateM (σ × List Event) α)
    (Says : List Event → α → Prop) : Prop :=
  ∀ w log, ∃ events, recorded (w, log) = ((plain w).1, (plain w).2, log ++ events) ∧
    Says events (plain w).1

section Recorded

variable {α β : Type} {P : List Event → α → Prop} {R : List Event → β → Prop}

theorem recorded_pure {a : α} (h : P [] a) :
    Recorded (pure a : StateM σ α) (pure a) P :=
  fun w log => ⟨[], by rw [List.append_nil]; rfl, h⟩

theorem recorded_now (t : Transport (StateM σ)) :
    Recorded t.now t.recording.now fun events now => events = [.told now] :=
  fun _ _ => ⟨_, rfl, rfl⟩

theorem recorded_send (t : Transport (StateM σ)) (q : Query) :
    Recorded (t.send q) (t.recording.send q) fun events reply => events = [.asked q reply] :=
  fun _ _ => ⟨_, rfl, rfl⟩

/-- What is said one after the other is put together. -/
theorem Recorded.bind {x : StateM σ α} {x' : StateM (σ × List Event) α} {f : α → StateM σ β}
    {f' : α → StateM (σ × List Event) β} (hx : Recorded x x' P)
    (hf : ∀ events a, P events a →
      Recorded (f a) (f' a) fun more b => R (events ++ more) b) :
    Recorded (x >>= f) (x' >>= f') R := by
  intro w log
  obtain ⟨events, hx', hP⟩ := hx w log
  obtain ⟨more, hf', hR⟩ := hf events (x w).1 hP (x w).2 (log ++ events)
  refine ⟨events ++ more, ?_, hR⟩
  have hbind : (x' >>= f') (w, log) = f' (x' (w, log)).1 (x' (w, log)).2 := rfl
  rw [hbind, hx', hf', List.append_assoc]
  rfl

end Recorded

namespace Session

/-! ## The parts of a fetch -/

/-- What an access says, and what it ends with. -/
inductive Access (s : Session) : List Event → Except SourceError Lease → Prop where
  /-- The lease that is kept is still valid. -/
  | kept {now : Int} {lease : Lease} (hlease : s.leaseAt? now = some lease) :
    Access s [.told now] (.ok lease)
  /-- The address of the service cannot be asked. -/
  | unaskable {now : Int} {f : NetworkFailure} (hlease : s.leaseAt? now = none)
    (hquery : s.tokenQuery = .error f) : Access s [.told now] (.error (.network f))
  /-- The service does not answer. -/
  | unanswered {now : Int} {q : Query} {f : NetworkFailure} (hlease : s.leaseAt? now = none)
    (hquery : s.tokenQuery = .ok q) :
    Access s [.told now, .asked q (.error f)] (.error (.network f))
  /-- The answer grants no token. -/
  | refused {now : Int} {q : Query} {a : Answer} {e : SourceError} (hlease : s.leaseAt? now = none)
    (hquery : s.tokenQuery = .ok q) (hgrant : grantOf q.address a = .error e) :
    Access s [.told now, .asked q (.ok a)] (.error e)
  /-- The answer grants a token. -/
  | granted {now issuedAt : Int} {q : Query} {a : Answer} {grant : TokenGrant}
    (hlease : s.leaseAt? now = none) (hquery : s.tokenQuery = .ok q)
    (hgrant : grantOf q.address a = .ok grant) :
    Access s [.told now, .asked q (.ok a), .told issuedAt] (leaseOf issuedAt grant)

/-- What a listing says with a lease, and what it ends with. -/
inductive Listing (s : Session) (lease : Lease) (service : String) :
    List Event → Except SourceError Offer → Prop where
  /-- The address of the service cannot be asked. -/
  | unaskable {f : NetworkFailure} (hquery : s.listQuery lease = .error f) :
    Listing s lease service [] (.error (.network f))
  /-- The service does not answer. -/
  | unanswered {q : Query} {f : NetworkFailure} (hquery : s.listQuery lease = .ok q) :
    Listing s lease service [.asked q (.error f)] (.error (.network f))
  /-- The service answers. -/
  | answered {q : Query} {a : Answer} (hquery : s.listQuery lease = .ok q) :
    Listing s lease service [.asked q (.ok a)] (offerOf q.address service a)

theorem access_recording (s : Session) (t : Transport (StateM σ)) :
    Recorded (s.access t) (s.access t.recording) s.Access := by
  refine (recorded_now t).bind ?_
  rintro _ now rfl
  cases hlease : s.leaseAt? now with
  | some lease => exact recorded_pure (.kept hlease)
  | none =>
    cases hquery : s.tokenQuery with
    | error f => exact recorded_pure (.unaskable hlease hquery)
    | ok q =>
      refine (recorded_send t q).bind ?_
      rintro _ reply rfl
      cases reply with
      | error f => exact recorded_pure (.unanswered hlease hquery)
      | ok a =>
        dsimp only
        cases hgrant : grantOf q.address a with
        | error e => exact recorded_pure (.refused hlease hquery hgrant)
        | ok grant =>
          refine (recorded_now t).bind ?_
          rintro _ issuedAt rfl
          exact recorded_pure (.granted hlease hquery hgrant)

theorem list_recording (s : Session) (t : Transport (StateM σ)) (lease : Lease) (service : String) :
    Recorded (s.list t lease service) (s.list t.recording lease service)
      (s.Listing lease service) := by
  rw [list, list]
  cases hquery : s.listQuery lease with
  | error f => exact recorded_pure (.unaskable hquery)
  | ok q =>
    refine (recorded_send t q).bind ?_
    rintro _ reply rfl
    cases reply with
    | error f => exact recorded_pure (.unanswered hquery)
    | ok a => exact recorded_pure (.answered hquery)

/-- What a fetch says, what it answers, and the session that it leaves. -/
inductive Fetched (s : Session) (service : String) :
    List Event → Except SourceError Offer × Session → Prop where
  /-- The access failed. -/
  | refused {events : List Event} {e : SourceError} (access : s.Access events (.error e)) :
    Fetched s service events (.error e, s)
  /-- The access gave a lease. -/
  | listed {events more : List Event} {lease : Lease} {answer : Except SourceError Offer}
    (access : s.Access events (.ok lease)) (listing : s.Listing lease service more answer) :
    Fetched s service (events ++ more) (answer, { s with lease? := some lease })

theorem fetch_recording (s : Session) (t : Transport (StateM σ)) (service : String) :
    Recorded (s.fetch t service) (s.fetch t.recording service) (s.Fetched service) := by
  refine (access_recording s t).bind ?_
  intro events access haccess
  cases access with
  | error e =>
    refine recorded_pure ?_
    rw [List.append_nil]
    exact .refused haccess
  | ok lease =>
    refine (list_recording s t lease service).bind ?_
    intro more answer hlisting
    refine recorded_pure ?_
    rw [List.append_nil]
    exact .listed haccess hlisting

end Session

/-! ## Runs -/

/-- One fetch of a run. -/
structure Turn where
  /-- The lease that is kept before it. -/
  kept : Option Lease
  /-- What is said in it. -/
  events : List Event
  answer : Except SourceError Offer
  /-- The lease that is kept after it. -/
  left : Option Lease

namespace Session

/-- The turns of a run, one for each service, and the world behind it. -/
def turns (s : Session) (t : Transport (StateM σ)) : List String → σ → List Turn × σ
  | [], w => ([], w)
  | service :: more, w =>
    let ((answer, s'), w, events) := s.fetch t.recording service (w, [])
    let (rest, w) := s'.turns t more w
    (⟨s.lease?, events, answer, s'.lease?⟩ :: rest, w)

/-- The first turn of a run is a fetch, and the others are the turns of a run from where it ends. -/
theorem exists_turns_cons (s : Session) (t : Transport (StateM σ)) (service : String)
    (more : List String) (w : σ) :
    ∃ events, s.Fetched service events (s.fetch t service w).1 ∧
      s.turns t (service :: more) w =
        (⟨s.lease?, events, (s.fetch t service w).1.1, (s.fetch t service w).1.2.lease?⟩ ::
            ((s.fetch t service w).1.2.turns t more (s.fetch t service w).2).1,
          ((s.fetch t service w).1.2.turns t more (s.fetch t service w).2).2) := by
  obtain ⟨events, hrecorded, hfetched⟩ := fetch_recording s t service w []
  exact ⟨events, hfetched, by rw [turns, hrecorded]; rfl⟩

/-- **The answers of a run are those of its turns.** -/
theorem fetchAll_eq_turns (s : Session) (t : Transport (StateM σ)) (services : List String)
    (w : σ) :
    s.fetchAll t services w =
      ((s.turns t services w).1.map Turn.answer, (s.turns t services w).2) := by
  induction services generalizing s w with
  | nil => rfl
  | cons service more ih =>
    obtain ⟨events, -, hturns⟩ := exists_turns_cons s t service more w
    have hstep : s.fetchAll t (service :: more) w =
        ((s.fetch t service w).1.1 ::
            ((s.fetch t service w).1.2.fetchAll t more (s.fetch t service w).2).1,
          ((s.fetch t service w).1.2.fetchAll t more (s.fetch t service w).2).2) := rfl
    rw [hstep, ih, hturns]
    rfl

end Session

end VersionAlignment

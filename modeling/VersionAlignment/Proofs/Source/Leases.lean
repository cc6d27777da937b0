import VersionAlignment.Proofs.Source.Recording
import VersionAlignment.Source.Script

/-!
# Leases over a run

A session keeps the lease that was granted last. A new token is asked for only when the kept lease
has run out; so when the clock never goes back, every lease that was granted before the last one has
run out as well, and looking at the kept one is looking at all of them. `Turn.Obeys` says what a
fetch may do after given leases have been granted, told from what is said in it. Nothing is assumed
about the services: whatever they answer, and whether they answer, every fetch of a run obeys.

## Results

* `Holds.leaseAt?_eq_none_iff`: no kept lease is valid exactly when none that was granted is.
* `Fetched.obeys`, `Fetched.holds`: one fetch obeys, and leaves the session as the next one needs
  it.
* `fetchAll_obeys`: every fetch of a run obeys.
-/

set_option autoImplicit false

namespace VersionAlignment

/-! ## What is said about leases -/

/-- Does the request ask for an access token? -/
def Query.wantsToken (q : Query) : Bool := q.method == .post

/-- The reply is an answer of success that is read as a token. -/
def BearsToken (reply : Except NetworkFailure Answer) : Prop :=
  ∃ a grant, reply = .ok a ∧ a.isSuccess = true ∧ TokenGrant.parse a.body = .ok grant

/-- The lease that an answer grants when it comes in at `issuedAt`. -/
def leaseIn? (q : Query) (a : Answer) (issuedAt : Int) : Option Lease :=
  ((Session.grantOf q.address a).bind (Session.leaseOf issuedAt)).toOption

/-- The leases that are granted, first to last: by an answer to a request for a token, at the time
that is told next. -/
def grants : List Event → List Lease
  | .asked q (.ok a) :: .told issuedAt :: more =>
    (if q.wantsToken then (leaseIn? q a issuedAt).toList else []) ++ grants more
  | _ :: more => grants more
  | [] => []

/-- The times that are told. -/
def readings (events : List Event) : List Int :=
  events.filterMap fun
    | .told now => some now
    | .asked _ _ => none

/-- A fetch that obeys, after the given leases have been granted. -/
structure Turn.Obeys (s : Session) (granted : List Lease) (turn : Turn) : Prop where
  /-- The clock is read first. What follows at once is a request for a token exactly when none of
  the leases is valid then. -/
  asks_iff : ∃ now rest, turn.events = .told now :: rest ∧ ∀ q, s.tokenQuery = .ok q →
    ((∃ reply more, rest = .asked q reply :: more) ↔ ∀ l ∈ granted, l.isValidAt now = false)
  /-- A token is asked for at no other place. -/
  asks_first : ∀ {before q reply after}, turn.events = before ++ .asked q reply :: after →
    q.wantsToken = true → s.tokenQuery = .ok q ∧ ∃ now, before = [.told now]
  /-- Without a token in the reply nothing more is said, and the kept lease stays. -/
  refused : ∀ {before q reply after}, turn.events = before ++ .asked q reply :: after →
    q.wantsToken = true → ¬ BearsToken reply →
      after = [] ∧ turn.left = turn.kept ∧ ∃ e, turn.answer = .error e
  /-- Every other request shows the token of the lease that was granted last, and that lease is
  kept, whatever the reply. -/
  lists : ∀ {before q reply after}, turn.events = before ++ .asked q reply :: after →
    q.wantsToken = false → ∃ l, (granted ++ grants before).getLast? = some l ∧
      s.listQuery l = .ok q ∧ q.authorization = some ("Bearer " ++ l.token) ∧ turn.left = some l
  /-- The kept lease is the one that was granted last, before the fetch and after it. -/
  keeps : turn.kept = granted.getLast? ∧ turn.left = (granted ++ grants turn.events).getLast?

/-! ## Requests -/

/-- An event of two lists, one after the other, is in the first or in the second. -/
theorem exists_of_append_eq {events more before after : List Event} {x : Event}
    (h : events ++ more = before ++ x :: after) :
    (∃ after', events = before ++ x :: after' ∧ after = after' ++ more) ∨
      ∃ before', before = events ++ before' ∧ more = before' ++ x :: after := by
  rcases List.append_eq_append_iff.1 h with ⟨w, rfl, hw⟩ | ⟨w, rfl, hw⟩
  · exact .inr ⟨w, rfl, hw⟩
  · rcases List.cons_eq_append_iff.1 hw with ⟨rfl, rfl⟩ | ⟨w', rfl, rfl⟩
    · exact .inr ⟨[], by simp, rfl⟩
    · exact .inl ⟨w', rfl, rfl⟩

namespace Session

variable {s : Session} {q : Query}

theorem wantsToken_of_tokenQuery (h : s.tokenQuery = .ok q) : q.wantsToken = true := by
  rw [tokenQuery] at h
  cases haddress : askableAddress s.endpoints.tokenUrl with
  | error f => rw [haddress] at h; cases h
  | ok address => rw [haddress] at h; cases h; rfl

theorem of_listQuery {lease : Lease} (h : s.listQuery lease = .ok q) :
    q.wantsToken = false ∧ q.authorization = some ("Bearer " ++ lease.token) := by
  rw [listQuery] at h
  cases haddress : askableAddress s.endpoints.listUrl with
  | error f => rw [haddress] at h; cases h
  | ok address => rw [haddress] at h; cases h; exact ⟨rfl, rfl⟩

theorem bearsToken_of_grantOf {address : Web.Address} {a : Answer} {grant : TokenGrant}
    (h : grantOf address a = .ok grant) : BearsToken (.ok a) := by
  rw [grantOf] at h
  split at h
  · next hsuccess =>
    split at h
    · cases h
    · next grant' hparse => exact ⟨a, grant', rfl, hsuccess, hparse⟩
  · cases h

variable {events more before after : List Event} {reply : Except NetworkFailure Answer}

/-- The only request behind a reading of the clock. -/
theorem eq_of_asked {now : Int} {q' : Query} {reply' : Except NetworkFailure Answer}
    {tail : List Event} (htail : ∀ e ∈ tail, ∃ x, e = .told x)
    (h : .told now :: .asked q' reply' :: tail = before ++ .asked q reply :: after) :
    before = [.told now] ∧ q' = q ∧ reply' = reply ∧ after = tail := by
  rcases List.cons_eq_append_iff.1 h with ⟨-, htold⟩ | ⟨front, rfl, hfront⟩
  · cases htold
  · rcases List.cons_eq_append_iff.1 hfront with ⟨rfl, hasked⟩ | ⟨front, rfl, rfl⟩
    · cases hasked
      exact ⟨rfl, rfl, rfl, rfl⟩
    · obtain ⟨x, hx⟩ := htail (.asked q reply) (by simp)
      cases hx

/-- What an access asks. -/
theorem Access.of_asked {access : Except SourceError Lease} (h : s.Access events access)
    (hevents : events = before ++ .asked q reply :: after) :
    s.tokenQuery = .ok q ∧ (∃ now, before = [.told now]) ∧
      (¬ BearsToken reply → after = [] ∧ ∃ e, access = .error e) := by
  cases h with
  | kept hlease => simp [List.cons_eq_append_iff] at hevents
  | unaskable hlease hquery => simp [List.cons_eq_append_iff] at hevents
  | unanswered hlease hquery =>
    obtain ⟨hbefore, rfl, rfl, rfl⟩ := eq_of_asked (by simp) hevents
    exact ⟨hquery, ⟨_, hbefore⟩, fun _ => ⟨rfl, _, rfl⟩⟩
  | refused hlease hquery hgrant =>
    obtain ⟨hbefore, rfl, rfl, rfl⟩ := eq_of_asked (by simp) hevents
    exact ⟨hquery, ⟨_, hbefore⟩, fun _ => ⟨rfl, _, rfl⟩⟩
  | granted hlease hquery hgrant =>
    obtain ⟨hbefore, rfl, rfl, rfl⟩ := eq_of_asked (by simp) hevents
    exact ⟨hquery, ⟨_, hbefore⟩, fun hnone => absurd (bearsToken_of_grantOf hgrant) hnone⟩

/-- What a listing asks. -/
theorem Listing.of_asked {lease : Lease} {service : String} {answer : Except SourceError Offer}
    (h : s.Listing lease service events answer)
    (hevents : events = before ++ .asked q reply :: after) :
    before = [] ∧ s.listQuery lease = .ok q := by
  have only : ∀ {q' : Query} {reply' : Except NetworkFailure Answer},
      [Event.asked q' reply'] = before ++ .asked q reply :: after → before = [] ∧ q' = q := by
    intro q' reply' hsingle
    rcases List.cons_eq_append_iff.1 hsingle with ⟨rfl, hasked⟩ | ⟨front, rfl, hfront⟩
    · cases hasked
      exact ⟨rfl, rfl⟩
    · simp at hfront
  cases h with
  | unaskable hquery => simp at hevents
  | unanswered hquery =>
    obtain ⟨hbefore, rfl⟩ := only hevents
    exact ⟨hbefore, hquery⟩
  | answered hquery =>
    obtain ⟨hbefore, rfl⟩ := only hevents
    exact ⟨hbefore, hquery⟩

/-- An access starts with a look at the clock, and asks for a token when no lease is valid. -/
theorem Access.of_told {access : Except SourceError Lease} (h : s.Access events access) :
    ∃ now rest, events = .told now :: rest ∧
      (s.leaseAt? now = none → ∀ q, s.tokenQuery = .ok q →
        ∃ reply more, rest = .asked q reply :: more) ∧
      (s.leaseAt? now ≠ none → rest = []) := by
  cases h with
  | kept hlease => exact ⟨_, [], rfl, by simp [hlease], fun _ => rfl⟩
  | unaskable hlease hquery => exact ⟨_, [], rfl, by simp [hquery], fun _ => rfl⟩
  | unanswered hlease hquery => exact ⟨_, _, rfl, by simp [hquery], by simp [hlease]⟩
  | refused hlease hquery hgrant => exact ⟨_, _, rfl, by simp [hquery], by simp [hlease]⟩
  | granted hlease hquery hgrant => exact ⟨_, _, rfl, by simp [hquery], by simp [hlease]⟩

/-! ## Grants -/

theorem leaseIn?_of_grantOf {a : Answer} {grant : TokenGrant} {issuedAt : Int}
    (h : grantOf q.address a = .ok grant) :
    leaseIn? q a issuedAt = (leaseOf issuedAt grant).toOption := by
  rw [leaseIn?, h]
  rfl

theorem Access.grants_eq_nil {e : SourceError} (h : s.Access events (.error e)) :
    grants events = [] := by
  generalize haccess : Except.error e = access at h
  cases h with
  | kept hlease => rfl
  | unaskable hlease hquery => rfl
  | unanswered hlease hquery => rfl
  | refused hlease hquery hgrant => rfl
  | granted hlease hquery hgrant =>
    simp [grants, leaseIn?_of_grantOf hgrant, ← haccess, Except.toOption]

/-- A lease is the one that is kept, or it is granted in the access. -/
theorem Access.lease_cases {lease : Lease} (h : s.Access events (.ok lease)) :
    ∃ now ∈ readings events,
      (s.leaseAt? now = some lease ∧ ∀ more, grants (events ++ more) = grants more) ∨
        (s.leaseAt? now = none ∧ ∀ more, grants (events ++ more) = lease :: grants more) := by
  generalize haccess : Except.ok lease = access at h
  cases h with
  | @kept now kept hlease =>
    cases haccess
    exact ⟨now, by simp [readings], .inl ⟨hlease, fun more => by simp [grants]⟩⟩
  | unaskable hlease hquery => cases haccess
  | unanswered hlease hquery => cases haccess
  | refused hlease hquery hgrant => cases haccess
  | @granted now issuedAt q a grant hlease hquery hgrant =>
    refine ⟨now, by simp [readings], .inr ⟨hlease, fun more => ?_⟩⟩
    simp [grants, leaseIn?_of_grantOf hgrant, ← haccess, Except.toOption,
      wantsToken_of_tokenQuery hquery]

theorem Access.grants_append {lease : Lease} (h : s.Access events (.ok lease)) (more : List Event) :
    grants (events ++ more) = grants events ++ grants more := by
  obtain ⟨now, -, ⟨-, hgrants⟩ | ⟨-, hgrants⟩⟩ := h.lease_cases
  · have hnone : grants events = [] := by simpa [grants] using hgrants []
    rw [hgrants, hnone, List.nil_append]
  · have hone : grants events = [lease] := by simpa [grants] using hgrants []
    rw [hgrants, hone]
    rfl

theorem Listing.grants_eq_nil {lease : Lease} {service : String} {answer : Except SourceError Offer}
    (h : s.Listing lease service events answer) : grants events = [] := by
  cases h <;> rfl

/-! ## One fetch -/

/-- What a session needs to know between two fetches: its lease was granted last, and the leases
that were granted before have run out at some time in the past. -/
structure Holds (s : Session) (granted : List Lease) (past : Int) : Prop where
  last : s.lease? = granted.getLast?
  expired : ∀ l ∈ granted.dropLast, l.expiresAt ≤ past

variable {granted : List Lease} {past now : Int} {service : String}
  {result : Except SourceError Offer × Session}

/-- No kept lease is valid exactly when none that was granted is. -/
theorem Holds.leaseAt?_eq_none_iff (h : s.Holds granted past) (hnow : past ≤ now) :
    s.leaseAt? now = none ↔ ∀ l ∈ granted, l.isValidAt now = false := by
  rw [leaseAt?, h.last]
  rcases granted.eq_nil_or_concat with rfl | ⟨init, l, rfl⟩
  · simp
  · rw [List.concat_eq_append] at h ⊢
    have hinit : ∀ l' ∈ init, l'.isValidAt now = false := by
      intro l' hl'
      have hexpired : l'.expiresAt ≤ past := h.expired l' (by simpa using hl')
      rw [Lease.isValidAt, decide_eq_false_iff_not]
      omega
    simp only [List.getLast?_concat, Option.filter_eq_none_iff, List.mem_append,
      List.mem_singleton]
    constructor
    · rintro hl l' (hl' | rfl)
      · exact hinit l' hl'
      · simpa using hl
    · intro hall
      simpa using hall l (.inr rfl)

/-- An access asks for a token at once exactly when none that was granted is valid, whatever comes
after it. -/
theorem Access.asks_iff {access : Except SourceError Lease} (h : s.Access events access)
    (hs : s.Holds granted past) (hpast : ∀ now ∈ readings events, past ≤ now)
    (hmore : ∀ q reply after, s.tokenQuery = .ok q → more ≠ .asked q reply :: after) :
    ∃ now rest, events ++ more = .told now :: rest ∧ ∀ q, s.tokenQuery = .ok q →
      ((∃ reply after, rest = .asked q reply :: after) ↔
        ∀ l ∈ granted, l.isValidAt now = false) := by
  obtain ⟨now, rest, rfl, hnone, hsome⟩ := h.of_told
  refine ⟨now, rest ++ more, rfl, fun q hq => ?_⟩
  rw [← hs.leaseAt?_eq_none_iff (hpast now (by simp [readings]))]
  constructor
  · rintro ⟨reply, after, hasked⟩
    cases hlease : s.leaseAt? now with
    | none => rfl
    | some lease =>
      rw [hsome (by simp [hlease]), List.nil_append] at hasked
      exact absurd hasked (hmore q reply after hq)
  · intro hlease
    obtain ⟨reply, after, rfl⟩ := hnone hlease q hq
    exact ⟨reply, after ++ more, rfl⟩

/-- The lease of an access is the one that was granted last, and the leases that were granted before
it have run out. -/
theorem Access.holds {lease : Lease} (h : s.Access events (.ok lease)) (hs : s.Holds granted past)
    (hpast : ∀ now ∈ readings events, past ≤ now) :
    ∃ now ∈ past :: readings events,
      { s with lease? := some lease }.Holds (granted ++ grants events) now := by
  obtain ⟨now, hnow, ⟨hlease, hgrants⟩ | ⟨hlease, hgrants⟩⟩ := h.lease_cases
  · have hnone : grants events = [] := by simpa [grants] using hgrants []
    have hkept : s.lease? = some lease := (Option.filter_eq_some_iff.1 hlease).1
    refine ⟨past, by simp, ?_, ?_⟩
    · rw [hnone, List.append_nil, ← hs.last, hkept]
    · rw [hnone, List.append_nil]
      exact hs.expired
  · have hone : grants events = [lease] := by simpa [grants] using hgrants []
    refine ⟨now, by simp [hnow], by simp [hone], fun l hl => ?_⟩
    rw [hone, List.dropLast_concat] at hl
    have hout := (hs.leaseAt?_eq_none_iff (hpast now hnow)).1 hlease l hl
    rw [Lease.isValidAt, decide_eq_false_iff_not] at hout
    omega

/-- A request in a fetch with a lease is one of the access or the one of the listing. -/
theorem Access.asked_cases {lease : Lease} {answer : Except SourceError Offer}
    (h : s.Access events (.ok lease)) (listing : s.Listing lease service more answer)
    (hevents : events ++ more = before ++ .asked q reply :: after) :
    (q.wantsToken = true ∧ ∃ after', events = before ++ .asked q reply :: after') ∨
      (q.wantsToken = false ∧ before = events ∧ s.listQuery lease = .ok q) := by
  rcases exists_of_append_eq hevents with ⟨after', hevents, -⟩ | ⟨before', rfl, hmore⟩
  · exact .inl ⟨wantsToken_of_tokenQuery (h.of_asked hevents).1, after', hevents⟩
  · obtain ⟨rfl, hquery⟩ := listing.of_asked hmore
    exact .inr ⟨(of_listQuery hquery).1, List.append_nil _, hquery⟩

/-- One fetch obeys. -/
theorem Fetched.obeys (h : s.Fetched service events result) (hs : s.Holds granted past)
    (hpast : ∀ now ∈ readings events, past ≤ now) :
    Turn.Obeys s granted ⟨s.lease?, events, result.1, result.2.lease?⟩ := by
  cases h with
  | refused access =>
    refine ⟨?_, fun hevents _ => ?_, fun hevents _ hbears => ?_, fun hevents hlist => ?_,
      hs.last, ?_⟩
    · rw [← List.append_nil events]
      exact access.asks_iff hs hpast (by simp)
    · obtain ⟨hquery, hbefore, -⟩ := access.of_asked hevents
      exact ⟨hquery, hbefore⟩
    · exact ⟨((access.of_asked hevents).2.2 hbears).1, rfl, _, rfl⟩
    · rw [wantsToken_of_tokenQuery (access.of_asked hevents).1] at hlist
      cases hlist
    · rw [access.grants_eq_nil, List.append_nil]
      exact hs.last
  | @listed events more lease answer access listing =>
    have hreadings : ∀ now ∈ readings events, past ≤ now := fun now hnow =>
      hpast now (by simp_all [readings])
    obtain ⟨-, -, hlast, -⟩ := access.holds hs hreadings
    refine ⟨access.asks_iff hs hreadings ?_, fun hevents htoken => ?_,
      fun hevents htoken hbears => ?_, fun hevents hlist => ?_, hs.last, ?_⟩
    · rintro q reply after hq rfl
      have hlist := of_listQuery (listing.of_asked (List.nil_append _).symm).2
      rw [wantsToken_of_tokenQuery hq] at hlist
      cases hlist.1
    · rcases access.asked_cases listing hevents with ⟨-, after', hevents⟩ | ⟨hlist, -⟩
      · obtain ⟨hquery, hbefore, -⟩ := access.of_asked hevents
        exact ⟨hquery, hbefore⟩
      · rw [htoken] at hlist
        cases hlist
    · rcases access.asked_cases listing hevents with ⟨-, after', hevents⟩ | ⟨hlist, -⟩
      · obtain ⟨-, e, he⟩ := (access.of_asked hevents).2.2 hbears
        cases he
      · rw [htoken] at hlist
        cases hlist
    · rcases access.asked_cases listing hevents with ⟨htoken, -⟩ | ⟨-, rfl, hquery⟩
      · rw [htoken] at hlist
        cases hlist
      · exact ⟨lease, hlast.symm, hquery, (of_listQuery hquery).2, rfl⟩
    · rw [access.grants_append, listing.grants_eq_nil, List.append_nil]
      exact hlast

/-- A fetch leaves the session as the next one needs it. -/
theorem Fetched.holds (h : s.Fetched service events result) (hs : s.Holds granted past)
    (hpast : ∀ now ∈ readings events, past ≤ now) :
    ∃ now ∈ past :: readings events, result.2.Holds (granted ++ grants events) now := by
  cases h with
  | refused access =>
    refine ⟨past, by simp, ?_⟩
    rw [access.grants_eq_nil, List.append_nil]
    exact hs
  | @listed events more lease answer access listing =>
    have hreadings : readings (events ++ more) = readings events ++ readings more :=
      List.filterMap_append
    rw [hreadings] at hpast ⊢
    obtain ⟨now, hnow, hholds⟩ :=
      access.holds hs fun now hnow => hpast now (List.mem_append_left _ hnow)
    refine ⟨now, List.mem_cons.2 ((List.mem_cons.1 hnow).imp_right (List.mem_append_left _)), ?_⟩
    rw [access.grants_append, listing.grants_eq_nil, List.append_nil]
    exact hholds

/-! ## Runs -/

/-- What a fetch may do does not depend on the lease that is kept. -/
theorem Fetched.obeys_before {turn : Turn} (h : s.Fetched service events result)
    (hturn : turn.Obeys result.2 granted) : turn.Obeys s granted := by
  cases h <;>
    exact ⟨hturn.asks_iff, hturn.asks_first, hturn.refused, hturn.lists, hturn.keeps⟩

/-- What does not go down can be started earlier. -/
theorem exists_pairwise_cons {times : List Int} (h : times.Pairwise (· ≤ ·)) :
    ∃ past, (past :: times).Pairwise (· ≤ ·) := by
  cases times with
  | nil => exact ⟨0, by simp⟩
  | cons now later => exact ⟨now, by simpa using h⟩

/-- The turns of a run obey, when the clock does not go back behind the past of the session. -/
theorem turns_obey {σ : Type} (s : Session) (t : Transport (StateM σ)) (services : List String)
    (w : σ) (hs : s.Holds granted past)
    (hclock : (past :: readings ((s.turns t services w).1.flatMap Turn.events)).Pairwise (· ≤ ·))
    {earlier later : List Turn} {turn : Turn}
    (hturns : (s.turns t services w).1 = earlier ++ turn :: later) :
    turn.Obeys s (granted ++ earlier.flatMap fun u => grants u.events) := by
  induction services generalizing s w granted past earlier with
  | nil => simp [turns] at hturns
  | cons service services ih =>
    obtain ⟨events, hfetched, hcons⟩ := exists_turns_cons s t service services w
    rw [hcons] at hclock hturns
    have hreadings : ∀ rest, readings (events ++ rest) = readings events ++ readings rest :=
      fun rest => List.filterMap_append
    rw [List.flatMap_cons, hreadings, ← List.cons_append] at hclock
    obtain ⟨hhere, hlater, hbetween⟩ := List.pairwise_append.1 hclock
    have hpast := (List.pairwise_cons.1 hhere).1
    rcases List.cons_eq_append_iff.1 hturns with ⟨rfl, hfirst⟩ | ⟨earlier, rfl, hrest⟩
    · cases hfirst
      simpa using hfetched.obeys hs hpast
    · obtain ⟨now, hnow, hholds⟩ := hfetched.holds hs hpast
      have hobeys := ih _ _ hholds (List.pairwise_cons.2 ⟨hbetween now hnow, hlater⟩) hrest
      rw [List.flatMap_cons, ← List.append_assoc]
      exact hfetched.obeys_before hobeys

/-- **Every fetch of a run obeys.** -/
theorem fetchAll_obeys {σ : Type} (t : Transport (StateM σ)) (apiKey : String)
    (endpoints : Endpoints) (services : List String) (w : σ)
    (hclock : (readings (((start apiKey endpoints).turns t services w).1.flatMap
      Turn.events)).Pairwise (· ≤ ·)) :
    (start apiKey endpoints).fetchAll t services w =
        (((start apiKey endpoints).turns t services w).1.map Turn.answer,
          ((start apiKey endpoints).turns t services w).2) ∧
      ∀ earlier turn later,
        ((start apiKey endpoints).turns t services w).1 = earlier ++ turn :: later →
          turn.Obeys (start apiKey endpoints) (earlier.flatMap fun u => grants u.events) := by
  refine ⟨fetchAll_eq_turns _ t services w, fun earlier turn later hturns => ?_⟩
  obtain ⟨past, hpast⟩ := exists_pairwise_cons hclock
  have hstart : (start apiKey endpoints).Holds [] past := ⟨rfl, by simp⟩
  simpa using turns_obey _ t services w hstart hpast hturns

/-- Services that grant a token for a short time, refuse the next one and then grant another; the
clock passes the end of the first one after two fetches. -/
def grantingAgain : Script where
  isReachable := true
  tokenAnswers := [⟨200, "\x7b\"access_token\":\"a\",\"expires_in\":100\x7d"⟩, ⟨400, "no"⟩,
    ⟨200, "\x7b\"access_token\":\"b\",\"expires_in\":3600\x7d"⟩]
  listAnswers := [⟨500, ""⟩]
  clock := [0, 0, 10, 50, 60, 60]
  arrived := []

theorem fetchAll_obeys_grantingAgain :
    let turns := ((start "key" ⟨"http://iam", "http://api", 0⟩).turns Script.transport
      ["redis", "mysql", "redis", "mysql"] grantingAgain).1
    turns.map (fun turn => (turn.events.filterMap fun
        | .asked q _ => some q.wantsToken
        | .told _ => none)) = [[true, false], [false], [true], [true, false]] ∧
      ∀ earlier turn later, turns = earlier ++ turn :: later →
        turn.Obeys (start "key" ⟨"http://iam", "http://api", 0⟩)
          (earlier.flatMap fun u => grants u.events) :=
  ⟨by decide +kernel,
    (fetchAll_obeys Script.transport "key" ⟨"http://iam", "http://api", 0⟩
      ["redis", "mysql", "redis", "mysql"] grantingAgain (by decide +kernel)).2⟩

end Session

end VersionAlignment

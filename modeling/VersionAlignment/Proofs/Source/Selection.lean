import VersionAlignment.Proofs.Source.Leases
import VersionAlignment.Proofs.Version.Stability

/-!
# What a fetch selects

A list of deployable versions has entries for services, and an entry has versions, some of them not
released and some of them preferred. `Deployable.Offers` says what an entry offers without saying
how it is found: the released versions, lowest first and tied ones in the order of the entry, and
one of them as the preferred one. A preferred version that is not released does not count, nor does
a second entry of the service, even if the first one offers nothing.

## Results

* `Deployable.offer?_eq_some_iff`: an offer is selected from an entry exactly if the entry offers
  it.
* `Deployable.Offers.eq`: an entry offers one thing only.
* `Session.fetch_selects`: what a fetch answers when it gets a list.
-/

set_option autoImplicit false

namespace VersionAlignment

open Version

/-! ## What an entry offers -/

/-- Nothing is said about how far the version is released, or it is said to be stable. -/
def DeployableVersion.Released (v : DeployableVersion) : Prop :=
  v.status = "" ∨ v.status = "stable"

theorem DeployableVersion.isStable_iff {v : DeployableVersion} :
    v.isStable = true ↔ v.Released := by
  simp [isStable, Released]

namespace Deployable

/-- The released versions of an entry, in its order. -/
def stable (d : Deployable) : List DeployableVersion :=
  d.versions.filter DeployableVersion.isStable

/-- The texts of the released versions, in the order of the entry. -/
def stableTexts (d : Deployable) : List String := d.stable.map DeployableVersion.version

/-- The entry offers this. -/
structure Offers (d : Deployable) (o : Offer) : Prop where
  /-- Some version is released. -/
  released : ∃ v ∈ d.versions, v.Released
  /-- Exactly the released versions are offered. -/
  perm : o.versions.Perm d.stableTexts
  ascending : o.versions.Pairwise fun a b => compareVersions a b ≠ .gt
  /-- Tied versions stay in the order of the entry. -/
  ties : ∀ a, (o.versions.filter fun b => compareVersions a b = .eq) =
    d.stableTexts.filter fun b => compareVersions a b = .eq
  /-- Of the released versions that are preferred the first one counts. -/
  first : ∀ before v after, d.stable = before ++ v :: after → v.isPreferred = true →
    (∀ u ∈ before, u.isPreferred = false) → o.preferred = v.version
  /-- If none of them is preferred, the last of the offered versions is. -/
  highest : (∀ v ∈ d.stable, v.isPreferred = false) → o.versions.getLast? = some o.preferred

variable {d : Deployable} {o o' : Offer}

theorem mem_stable {v : DeployableVersion} : v ∈ d.stable ↔ v ∈ d.versions ∧ v.Released := by
  rw [stable, List.mem_filter, DeployableVersion.isStable_iff]

theorem mem_stableTexts {s : String} :
    s ∈ d.stableTexts ↔ ∃ v ∈ d.versions, v.Released ∧ v.version = s := by
  simp [stableTexts, mem_stable, and_assoc]

theorem stable_eq_nil_iff : d.stable = [] ↔ ¬ ∃ v ∈ d.versions, v.Released := by
  rw [List.eq_nil_iff_forall_not_mem]
  simp [mem_stable]

/-- The first preferred version, if there is one. -/
theorem preferred_cases (vs : List DeployableVersion) :
    (vs.find? DeployableVersion.isPreferred = none ∧ ∀ v ∈ vs, v.isPreferred = false) ∨
      ∃ before v after, vs.find? DeployableVersion.isPreferred = some v ∧
        vs = before ++ v :: after ∧ v.isPreferred = true ∧
          ∀ u ∈ before, u.isPreferred = false := by
  cases hfind : vs.find? DeployableVersion.isPreferred with
  | none => exact .inl ⟨rfl, by simpa using hfind⟩
  | some v =>
    obtain ⟨hv, before, after, rfl, hbefore⟩ := List.find?_eq_some_iff_append.1 hfind
    exact .inr ⟨before, v, after, rfl, rfl, hv, by simpa using hbefore⟩

/-! ## What an offer says -/

/-- Whatever an entry offers has the versions in one order. -/
theorem Offers.versions_eq (h : d.Offers o) : o.versions = sortAscending d.stableTexts := by
  refine ranking_ascending.eq_of_filter_eq (h.ascending.imp notAbove_iff.2)
    (ranking_ascending.pairwise_sortBy _) fun a => ?_
  unfold sortAscending
  rw [ranking_ascending.filter_sortBy, ← filter_tied_eq, ← filter_tied_eq]
  exact h.ties a

/-- An entry offers one thing only. -/
theorem Offers.eq (h : d.Offers o) (h' : d.Offers o') : o = o' := by
  have hversions : o.versions = o'.versions := by rw [h.versions_eq, h'.versions_eq]
  have hpreferred : o.preferred = o'.preferred := by
    rcases preferred_cases d.stable with ⟨-, hnone⟩ | ⟨before, v, after, -, heq, hv, hbefore⟩
    · apply Option.some.inj
      rw [← h.highest hnone, ← h'.highest hnone, hversions]
    · rw [h.first before v after heq hv hbefore, h'.first before v after heq hv hbefore]
  cases o
  cases o'
  simp_all

/-- The preferred version is one of those that are offered. -/
theorem Offers.preferred_mem (h : d.Offers o) : o.preferred ∈ o.versions := by
  rcases preferred_cases d.stable with ⟨-, hnone⟩ | ⟨before, v, after, -, heq, hv, hbefore⟩
  · exact List.mem_of_getLast? (h.highest hnone)
  · rw [h.first before v after heq hv hbefore, h.perm.mem_iff, stableTexts, heq]
    simp

/-- Only released versions are offered. -/
theorem Offers.exists_released (h : d.Offers o) {s : String} (hs : s ∈ o.versions) :
    ∃ v ∈ d.versions, v.Released ∧ v.version = s :=
  mem_stableTexts.1 (h.perm.mem_iff.1 hs)

/-! ## What is selected -/

theorem offer?_eq (d : Deployable) :
    d.offer? = (((d.stable.find? DeployableVersion.isPreferred).map DeployableVersion.version).or
      (sortAscending d.stableTexts).getLast?).map fun p => ⟨sortAscending d.stableTexts, p⟩ := by
  have hsorted : latestOf? (sortAscending d.stableTexts) =
    (sortAscending d.stableTexts).getLast? := by
    rw [latestOf?_eq_getLast?, sortAscending_sortAscending]
  rw [← hsorted]
  rfl

/-- What is selected is offered. -/
theorem offers_of_offer? (h : d.offer? = some o) : d.Offers o := by
  have hstable : ∃ v ∈ d.versions, v.Released := by
    by_contra hnone
    have hnil := stable_eq_nil_iff.2 hnone
    rw [offer?_eq, stableTexts, hnil] at h
    cases h
  rw [offer?_eq] at h
  obtain ⟨p, hp, rfl⟩ := Option.map_eq_some_iff.1 h
  refine ⟨hstable, sortBy_perm notAbove _,
    (ranking_ascending.pairwise_sortBy _).imp notAbove_iff.1, fun a => ?_, ?_, ?_⟩
  · rw [filter_tied_eq, filter_tied_eq]
    exact ranking_ascending.filter_sortBy a _
  · intro before v after heq hv hbefore
    have hfind : d.stable.find? DeployableVersion.isPreferred = some v :=
      List.find?_eq_some_iff_append.2 ⟨hv, before, after, heq, by simpa using hbefore⟩
    rw [hfind] at hp
    exact (Option.some.inj hp).symm
  · intro hnone
    have hfind : d.stable.find? DeployableVersion.isPreferred = none := by simpa using hnone
    rw [hfind] at hp
    exact hp

/-- An offer is selected from an entry exactly if the entry offers it. -/
theorem offer?_eq_some_iff : d.offer? = some o ↔ d.Offers o := by
  refine ⟨offers_of_offer?, fun h => ?_⟩
  cases hoffer : d.offer? with
  | none =>
    obtain ⟨v, hv, hreleased⟩ := h.released
    have hunstable := (offer?_eq_none_iff d).1 hoffer v hv
    rw [DeployableVersion.isStable_iff.2 hreleased] at hunstable
    cases hunstable
  | some o' => rw [h.eq (offers_of_offer? hoffer)]

/-- There is something to select exactly if some version is released. -/
theorem exists_offer?_iff : (∃ o, d.offer? = some o) ↔ ∃ v ∈ d.versions, v.Released := by
  constructor
  · rintro ⟨o, ho⟩
    exact (offers_of_offer? ho).released
  · rintro ⟨v, hv, hreleased⟩
    apply Option.ne_none_iff_exists'.1
    intro hnone
    have hunstable := (offer?_eq_none_iff d).1 hnone v hv
    rw [DeployableVersion.isStable_iff.2 hreleased] at hunstable
    cases hunstable

end Deployable

/-! ## The entry of a service -/

/-- The entry is the first one of the service. -/
def IsEntry (ds : List Deployable) (service : String) (d : Deployable) : Prop :=
  ∃ before after, ds = before ++ d :: after ∧ d.isCalled service = true ∧
    ∀ other ∈ before, other.isCalled service = false

variable {ds : List Deployable} {service : String} {d : Deployable}

theorem find?_isCalled_iff :
    (ds.find? fun d => d.isCalled service) = some d ↔ IsEntry ds service d := by
  rw [List.find?_eq_some_iff_append]
  constructor
  · rintro ⟨hd, before, after, hds, hbefore⟩
    exact ⟨before, after, hds, hd, by simpa using hbefore⟩
  · rintro ⟨before, after, hds, hd, hbefore⟩
    exact ⟨hd, before, after, hds, by simpa using hbefore⟩

theorem selectOffer_eq_ok_iff {o : Offer} :
    selectOffer ds service = .ok o ↔ ∃ d, IsEntry ds service d ∧ d.Offers o := by
  have hbind : selectOffer ds service = .ok o ↔
      (ds.find? fun d => d.isCalled service).bind Deployable.offer? = some o := by
    unfold selectOffer
    cases (ds.find? fun d => d.isCalled service).bind Deployable.offer? <;> simp
  rw [hbind, Option.bind_eq_some_iff]
  simp only [find?_isCalled_iff, Deployable.offer?_eq_some_iff]

theorem selectOffer_eq_error_iff {e : SourceError} :
    selectOffer ds service = .error e ↔
      e = .serviceNotFound service ∧
        ¬ ∃ d, IsEntry ds service d ∧ ∃ v ∈ d.versions, v.Released := by
  have hsome : (∃ d, IsEntry ds service d ∧ ∃ v ∈ d.versions, v.Released) ↔
      ((ds.find? fun d => d.isCalled service).bind Deployable.offer?).isSome = true := by
    simp only [Option.isSome_iff_exists, Option.bind_eq_some_iff, ← Deployable.exists_offer?_iff,
      ← find?_isCalled_iff]
    exact ⟨fun ⟨d, hd, o, ho⟩ => ⟨o, d, hd, ho⟩, fun ⟨o, d, hd, ho⟩ => ⟨d, hd, o, ho⟩⟩
  rw [hsome]
  unfold selectOffer
  cases (ds.find? fun d => d.isCalled service).bind Deployable.offer? <;> simp [eq_comm]

/-- The answer is a sound selection from a list. -/
structure SelectedFrom (ds : List Deployable) (service : String)
    (answer : Except SourceError Offer) : Prop where
  /-- An offer is what the first entry of the service offers. -/
  ok_iff : ∀ o, answer = .ok o ↔ ∃ d, IsEntry ds service d ∧ d.Offers o
  /-- There is one exactly if that entry has a released version. -/
  found_iff : (∃ o, answer = .ok o) ↔ ∃ d, IsEntry ds service d ∧ ∃ v ∈ d.versions, v.Released
  /-- Else the service is not found. -/
  error_iff : ∀ e, answer = .error e ↔
    e = .serviceNotFound service ∧ ¬ ∃ d, IsEntry ds service d ∧ ∃ v ∈ d.versions, v.Released
  preferred_mem : ∀ o, answer = .ok o → o.preferred ∈ o.versions
  /-- Every offered version is a released one of the entry. -/
  released : ∀ o, answer = .ok o → ∃ d, IsEntry ds service d ∧
    ∀ text ∈ o.versions, ∃ v ∈ d.versions, v.Released ∧ v.version = text

theorem selectedFrom_selectOffer (ds : List Deployable) (service : String) :
    SelectedFrom ds service (selectOffer ds service) := by
  refine ⟨fun o => selectOffer_eq_ok_iff, ⟨?_, ?_⟩, fun e => selectOffer_eq_error_iff,
    fun o ho => ?_, fun o ho => ?_⟩
  · rintro ⟨o, ho⟩
    obtain ⟨d, hd, hoffers⟩ := selectOffer_eq_ok_iff.1 ho
    exact ⟨d, hd, hoffers.released⟩
  · intro hreleased
    cases hselect : selectOffer ds service with
    | ok o => exact ⟨o, rfl⟩
    | error e => exact absurd hreleased (selectOffer_eq_error_iff.1 hselect).2
  · obtain ⟨d, -, hoffers⟩ := selectOffer_eq_ok_iff.1 ho
    exact hoffers.preferred_mem
  · obtain ⟨d, hd, hoffers⟩ := selectOffer_eq_ok_iff.1 ho
    exact ⟨d, hd, fun text htext => hoffers.exists_released htext⟩

/-! ## What a fetch answers -/

/-- The answers to requests that do not want a token. -/
def listAnswers (events : List Event) : List Answer :=
  events.filterMap fun
    | .asked q (.ok a) => if q.wantsToken then none else some a
    | _ => none

theorem mem_listAnswers {events : List Event} {a : Answer} :
    a ∈ listAnswers events ↔
      ∃ q before after, q.wantsToken = false ∧ events = before ++ .asked q (.ok a) :: after := by
  constructor
  · intro h
    obtain ⟨e, he, ha⟩ := List.mem_filterMap.1 h
    cases e with
    | told now => cases ha
    | asked q reply =>
      cases reply with
      | error f => cases ha
      | ok a' =>
        obtain ⟨before, after, rfl⟩ := List.append_of_mem he
        dsimp only at ha
        split at ha
        · cases ha
        · next hq =>
          cases ha
          exact ⟨q, before, after, by simpa using hq, rfl⟩
  · rintro ⟨q, before, after, hq, rfl⟩
    exact List.mem_filterMap.2 ⟨.asked q (.ok a), by simp, by simp [hq]⟩

namespace Session

/-- A fetch that gets a list answers with what is selected from it. -/
theorem Fetched.answer_eq {s : Session} {events : List Event} {a : Answer}
    {result : Except SourceError Offer × Session} (h : s.Fetched service events result)
    (ha : a ∈ listAnswers events) : ∃ address, result.1 = offerOf address service a := by
  obtain ⟨q, before, after, hq, hevents⟩ := mem_listAnswers.1 ha
  cases h with
  | refused access =>
    rw [wantsToken_of_tokenQuery (access.of_asked hevents).1] at hq
    cases hq
  | listed access listing =>
    rcases access.asked_cases listing hevents with ⟨htoken, -⟩ | ⟨-, rfl, -⟩
    · rw [hq] at htoken
      cases htoken
    · have hmore := List.append_cancel_left hevents
      cases listing with
      | unaskable hquery => cases hmore
      | unanswered hquery => cases hmore
      | @answered q a' hquery =>
        cases hmore
        exact ⟨_, rfl⟩

theorem offerOf_of_parse {address : Web.Address} {a : Answer} (hsuccess : a.isSuccess = true)
    (hds : parseDeployables a.body = .ok ds) :
    offerOf address service a = selectOffer ds service := by
  rw [offerOf, if_pos hsuccess, hds]

/-- A fetch that gets a list answers with what is selected from it. -/
theorem fetch_eq_selectOffer {σ : Type} (s : Session) (t : Transport (StateM σ)) (service : String)
    (w : σ) (a : Answer) (ds : List Deployable)
    (ha : a ∈ listAnswers (s.fetch t.recording service (w, [])).2.2)
    (hsuccess : a.isSuccess = true) (hds : parseDeployables a.body = .ok ds) :
    (s.fetch t service w).1.1 = selectOffer ds service := by
  obtain ⟨events, hrecorded, hfetched⟩ := fetch_recording s t service w []
  rw [hrecorded, List.nil_append] at ha
  obtain ⟨address, hanswer⟩ := hfetched.answer_eq ha
  rw [hanswer, offerOf_of_parse hsuccess hds]

/-- **A fetch that gets a list selects soundly from it.** -/
theorem fetch_selects {σ : Type} (s : Session) (t : Transport (StateM σ)) (service : String) (w : σ)
    (a : Answer) (ds : List Deployable)
    (ha : a ∈ listAnswers (s.fetch t.recording service (w, [])).2.2)
    (hsuccess : a.isSuccess = true) (hds : parseDeployables a.body = .ok ds) :
    SelectedFrom ds service (s.fetch t service w).1.1 := by
  rw [fetch_eq_selectOffer s t service w a ds ha hsuccess hds]
  exact selectedFrom_selectOffer ds service

/-- A list with two entries of one service, spelled differently. In the first of them a version that
is not released is preferred, two released ones are, and two of the released ones are tied. -/
def twoEntries : List Deployable :=
  [⟨"mysql", [⟨"8", "", false⟩]⟩,
   ⟨"Redis", [⟨"8", "beta", true⟩, ⟨"7.2", "stable", false⟩, ⟨"7.0", "", true⟩, ⟨"6", "", true⟩,
     ⟨"7", "stable", false⟩]⟩,
   ⟨"redis", [⟨"9", "stable", true⟩]⟩]

/-- The list as a service sends it. -/
def twoEntriesAnswer : Answer :=
  ⟨200,
    "\x7b\"deployables\":[\x7b\"type\":\"mysql\",\"versions\":[\x7b\"version\":\"8\"\x7d]\x7d," ++
    "\x7b\"type\":\"Redis\",\"versions\":[" ++
    "\x7b\"version\":\"8\",\"status\":\"beta\",\"is_preferred\":true\x7d," ++
    "\x7b\"version\":\"7.2\",\"status\":\"stable\"\x7d," ++
    "\x7b\"version\":\"7.0\",\"is_preferred\":true\x7d," ++
    "\x7b\"version\":\"6\",\"is_preferred\":true\x7d," ++
    "\x7b\"version\":\"7\",\"status\":\"stable\"\x7d]\x7d," ++
    "\x7b\"type\":\"redis\",\"versions\":[" ++
    "\x7b\"version\":\"9\",\"status\":\"stable\",\"is_preferred\":true\x7d]\x7d]\x7d"⟩

/-- Services that grant a token and send the answer for the list. -/
def sending (a : Answer) : Script where
  isReachable := true
  tokenAnswers := [⟨200, "\x7b\"access_token\":\"a\",\"expires_in\":100\x7d"⟩]
  listAnswers := [a]
  clock := [0]
  arrived := []

theorem listAnswers_sending (a : Answer) :
    listAnswers ((start "key" ⟨"http://iam", "http://api", 0⟩).fetch
      Script.transport.recording "redis" (sending a, [])).2.2 = [a] := by
  with_unfolding_all rfl

theorem parse_twoEntriesAnswer : parseDeployables twoEntriesAnswer.body = .ok twoEntries := by
  have hok : (parseDeployables twoEntriesAnswer.body).toOption = some twoEntries := by
    -- the characters of a long text are found piece by piece
    simp only [parseDeployables, twoEntriesAnswer, String.toList_append]
    decide +kernel
  cases hparse : parseDeployables twoEntriesAnswer.body with
  | error f => rw [hparse] at hok; cases hok
  | ok ds => rw [hparse] at hok; rw [Option.some.inj hok]

theorem fetch_selects_twoEntries :
    let fetched := (start "key" ⟨"http://iam", "http://api", 0⟩).fetch Script.transport "redis"
      (sending twoEntriesAnswer)
    twoEntriesAnswer ∈ listAnswers ((start "key" ⟨"http://iam", "http://api", 0⟩).fetch
        Script.transport.recording "redis" (sending twoEntriesAnswer, [])).2.2 ∧
      parseDeployables twoEntriesAnswer.body = .ok twoEntries ∧
      fetched.1.1.toOption = some ⟨["6", "7.0", "7", "7.2"], "7.0"⟩ ∧
      SelectedFrom twoEntries "redis" fetched.1.1 := by
  have ha : twoEntriesAnswer ∈ listAnswers ((start "key" ⟨"http://iam", "http://api", 0⟩).fetch
      Script.transport.recording "redis" (sending twoEntriesAnswer, [])).2.2 := by
    rw [listAnswers_sending]
    exact List.mem_singleton_self _
  have hselected := fetch_eq_selectOffer _ Script.transport "redis" (sending twoEntriesAnswer) _
    twoEntries ha rfl parse_twoEntriesAnswer
  refine ⟨ha, parse_twoEntriesAnswer, ?_, fetch_selects _ Script.transport "redis"
    (sending twoEntriesAnswer) twoEntriesAnswer twoEntries ha rfl parse_twoEntriesAnswer⟩
  rw [hselected]
  decide +kernel

end Session

end VersionAlignment

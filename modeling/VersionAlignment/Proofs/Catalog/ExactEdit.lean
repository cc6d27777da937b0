import VersionAlignment.Proofs.Catalog.KeyMatch
import VersionAlignment.Proofs.Catalog.StandardRuns

/-!
# Updating an item in the standard layout

A catalog with one configuration item for the field, in the standard layout, is answered with the
updated item in the place of the item, and with all its other lines as they are. Nothing is asked of
these other lines but that the text is a document, and that it names the field as a key once.

The edit of the lines is known once the lines of the object that owns the key are: these are the
ones of the item. That the edited text is a document again, in which the item carries the request,
comes from reading both texts side by side.

## Results

* `RunsItem.owningSpans_eq`: the lines that are edited are those of the item.
* `exists_edited_document`: the edited text is an edited copy of the document.
* `update_standardItem`: the exact update of an item in the standard layout.
-/

set_option autoImplicit false

namespace VersionAlignment.Artifact.Catalog

open Text Json Json.Reading

/-! ## The lines that are edited -/

section
variable {r : Request} {ending text s : List Char} {item : LaidItem}
  {before after : List (List Char)}
  {field : String} {margins : Margins} {σ σ' τ ρ ρ' ω ω' : Reading}

/-- The member with the key of the item, from the quote that its name starts with. -/
def keyText (field : String) (margins : Margins) : List Char :=
  "key\"".toList ++ (margins.between ++ ':' :: (margins.behind ++ quoted field))

theorem lead_key (field : String) (margins : Margins) (s : List Char) :
    margins.lead "key".toList ++ (quoted field ++ s) =
      margins.before ++ '"' :: (keyText field margins ++ s) := by
  simp [Margins.lead, keyText]

theorem isSome_keyMember_keyText (hmargins : margins.IsBlank) :
    ((keyMember field).take? ('"' :: (keyText field margins ++ s))).isSome = true := by
  have hmem : '"' :: keyText field margins ∈ keyMembers field := by
    refine Language.mem_mul.2 ⟨quoted "key", rfl, _, Language.mem_mul.2 ⟨margins.between,
      isBlank_of_allBlank hmargins.between, _, Language.mem_mul.2 ⟨[':'], rfl, _,
        Language.mem_mul.2 ⟨margins.behind, isBlank_of_allBlank hmargins.behind, _, rfl, rfl⟩, rfl⟩,
      rfl⟩, ?_⟩
    simp [keyText, quoted]
  rw [← List.cons_append, (recognizes_keyMember field).take?_append hmem]
  rfl

/-- The lines of an item in the standard layout, cut at the quote with which its key starts. -/
theorem LaidItem.IsStandard.exists_key (h : item.IsStandard field) (ending : List Char) :
    ∃ (margins : Margins) (pre post : List LaidMember) (t : List Char), margins.IsBlank ∧
      (∃ m, item.members = pre ++ m :: post) ∧
      ((keyMember field).take? ('"' :: t)).isSome = true ∧
      (LaidItem.memberLines item.members).map (· ++ ending) =
        (LaidItem.memberLines pre).map (· ++ ending) ++
          (margins.before ++ '"' :: t) :: (LaidItem.memberLines post).map (· ++ ending) := by
  obtain ⟨margins, trail, hmem⟩ := h.key
  have hmargins : margins.IsBlank := by
    cases h.members _ hmem with
    | plain hmargins => exact hmargins
  obtain ⟨pre, post, hmembers⟩ := List.append_of_mem hmem
  refine ⟨margins, pre, post, keyText field margins ++ (trail ++ ending), hmargins, ⟨_, hmembers⟩,
    isSome_keyMember_keyText hmargins, ?_⟩
  rw [hmembers, LaidItem.memberLines, List.flatMap_append, List.flatMap_cons, List.map_append,
    List.map_append, LaidMember.lines, List.map_cons, List.map_nil, List.append_assoc,
    List.append_assoc, lead_key]
  rfl

/-- The machine behind the first members of an item. -/
theorem RunsItem.inItem_of_prefix {k : Nat} (h : RunsItem r ending item k σ σ' τ ρ ρ' ω ω')
    (hitem : item.Updatable r ending) {pre post : List LaidMember}
    (hmembers : item.members = pre ++ post) {κ : Reading}
    (hrun : ρ.run (flat ((LaidItem.memberLines pre).map (· ++ ending))) = some κ) :
    ∃ κ', InItem (itemRewrite r k item) ⟨k, item.opening.length⟩ σ.frames
      (k + 1 + (LaidItem.memberLines pre).length) κ κ' := by
  have hmem : ∀ m ∈ pre, m ∈ item.members := fun m hm => hmembers ▸ List.mem_append_left _ hm
  have hmarks := marks_markedLines (k + 1) item.members
  rw [hmembers] at hmarks
  have hnewline : ∀ line ∈ (LaidItem.memberLines pre).map (· ++ ending), '\n' ∉ line := by
    intro line hline
    refine hitem.newline line ?_
    rw [map_lines_item, hmembers, LaidItem.memberLines, List.flatMap_append, List.map_append]
    exact List.mem_cons_of_mem _ (List.mem_append_left _ (List.mem_append_left _ hline))
  obtain ⟨κ', -, hκ⟩ := h.first.members (fun m hm => hitem.standard.members m (hmem m hm))
    (fun m hm => hitem.plain m (hmem m hm)) hitem.writable hitem.ne_nil hitem.nodup hitem.blank
    (hmembers ▸ hmarks.of_append) hnewline hrun
  exact ⟨κ', hκ⟩

/-- Behind the indentation of a line of an item, the item is the innermost object. -/
theorem InItem.indented {w : Rewrite} {opened : Position} {outer : List Frame} {k : Nat}
    (h : InItem w opened outer k σ σ') (hs : AllBlank s) (hrun : σ.run s = some τ) :
    τ.mode = .idle ∧ openPlaces τ.frames = opened :: openPlaces outer := by
  obtain ⟨ms, hframes, -⟩ := h.frames
  rw [run_allBlank hs h.idle hrun, hframes]
  exact ⟨rfl, rfl⟩

/-- **The lines that are edited** are those of the item. -/
theorem RunsItem.owningSpans_eq (h : RunsItem r ending item before.length σ σ' τ ρ ρ' ω ω')
    (hitem : item.Updatable r ending)
    (hlines : lines text = before ++ (item.lines.map (· ++ ending) ++ after))
    (hkey : (keyMatches r.field text).length = 1)
    (hbefore : Reading.start.run (flat before) = some σ) {κ : Reading}
    (hafter : τ.run (flat after) = some κ) :
    owningSpans r.field (lines text) =
      [⟨before.length, before.length + item.lines.length - 1⟩] := by
  obtain ⟨margins, pre, post, t, hmargins, ⟨m, hmembers⟩, hmatch, hcut⟩ :=
    hitem.standard.exists_key ending
  -- up to the quote of the key
  have hrun := h.members
  rw [hcut, flat_append, run_append_eq_some] at hrun
  obtain ⟨κ₀, hpre, hmore⟩ := hrun
  obtain ⟨_, hkeyItem⟩ := h.inItem_of_prefix hitem hmembers hpre
  rw [flat_cons, List.append_assoc, List.cons_append, run_append_eq_some] at hmore
  obtain ⟨κ₁, hblank, hquote⟩ := hmore
  obtain ⟨hidle, hobject⟩ := hkeyItem.indented hmargins.before hblank
  have hfirst : Reading.start.run (flat (before ++ (item.opening ++ '\x7b' :: ending) ::
      (LaidItem.memberLines pre).map (· ++ ending)) ++ margins.before) = some κ₁ := by
    rw [flat_append, flat_line_cons, run_append, run_append, hbefore, Option.bind_some, run_append,
      h.opens, Option.bind_some, hpre, Option.bind_some, hblank]
  -- up to the brace that closes the item
  have hcloses := h.closes
  rw [List.append_assoc, run_append_eq_some] at hcloses
  obtain ⟨ω₁, hblank', hbrace⟩ := hcloses
  obtain ⟨hidle', hobject'⟩ := h.last.indented hitem.standard.closing hblank'
  have hsecond :
    κ₁.run ('"' :: (t ++ '\n' :: flat ((LaidItem.memberLines post).map (· ++ ending)) ++
      item.closing)) = some ω₁ := by
    rw [← List.cons_append, run_append, hquote, Option.bind_some, hblank']
  have hclosing : '\n' ∉ item.closing := by
    intro hmem
    refine hitem.newline (item.closing ++ '\x7d' :: (item.trail ++ ending)) ?_
      (List.mem_append_left _ hmem)
    rw [map_lines_item]
    exact List.mem_cons_of_mem _ (List.mem_append_right _ List.mem_cons_self)
  have hplace : ω₁.place.line = before.length + item.lines.length - 1 := by
    rw [place_of_run hclosing hblank', h.last.place]
    simp only [LaidItem.lines, List.length_cons, List.length_append, List.length_nil]
    omega
  -- the rest of the text
  have hthird : ω₁.run ('\x7d' :: (item.trail ++ ending ++ '\n' :: flat after)) = some κ := by
    have htext : '\x7d' :: (item.trail ++ ending ++ '\n' :: flat after) =
        ('\x7d' :: (item.trail ++ ending) ++ ['\n']) ++ flat after := by simp
    rw [htext, run_append, hbrace, Option.bind_some, hafter]
  have hsplit : lines text =
      (before ++ (item.opening ++ '\x7b' :: ending) :: (LaidItem.memberLines pre).map
        (· ++ ending)) ++
        (margins.before ++ '"' :: t) :: ((LaidItem.memberLines post).map (· ++ ending) ++
          (item.closing ++ '\x7d' :: (item.trail ++ ending)) :: after) := by
    rw [hlines, map_lines_item, hcut]
    simp
  have hrest : t ++ '\n' :: flat ((LaidItem.memberLines post).map (· ++ ending) ++
      (item.closing ++ '\x7d' :: (item.trail ++ ending)) :: after) =
        (t ++ '\n' :: flat ((LaidItem.memberLines post).map (· ++ ending)) ++ item.closing) ++
          '\x7d' :: (item.trail ++ ending ++ '\n' :: flat after) := by
    rw [flat_append, flat_cons]
    simp
  rw [owningSpans_of_keyMatches hkey hsplit hmatch hrest hfirst hidle hobject hsecond hidle'
    hobject' hthird, hplace]

end

/-! ## The edited text -/

section
variable {e : Edit} {n : Nat} {more out block : List (List Char)}

/-- Lines that are not covered are kept. -/
theorem edited_outside (h : ∀ k, n ≤ k → k < n + block.length → e.covers k = false)
    (hmore : Edited e (n + block.length) more out) : Edited e n (block ++ more) (block ++ out) := by
  induction block generalizing n with
  | nil => exact hmore
  | cons line block ih =>
    rw [List.length_cons] at h hmore
    refine .kept (fun hcovers => ?_) (ih (fun k hk hk' => h k (by omega) (by omega)) ?_)
    · rw [h n (Nat.le_refl n) (by omega)] at hcovers
      cases hcovers
    · rwa [show n + 1 + block.length = n + (block.length + 1) by omega]

variable {r : Request} {text : List Char} {item : LaidItem} {before after : List (List Char)}

theorem item_length_pos (item : LaidItem) : 0 < item.lines.length := by simp [LaidItem.lines]

/-- **The edited text**: the updated item in the place of the item. -/
theorem editText_eq (hitem : item.Updatable r (lineEnding text))
    (hlatest : r.latest ≠ "")
    (hlines : lines text = before ++ (item.lines.map (· ++ lineEnding text) ++ after))
    (hspans : owningSpans r.field (lines text) =
      [⟨before.length, before.length + item.lines.length - 1⟩]) :
    editText text r =
      unlines (before ++ ((item.updated r).lines.map (· ++ lineEnding text) ++ after)) := by
  have hpos := item_length_pos item
  have hcovers : ∀ k, (editOf text r).covers k = true ↔
      before.length ≤ k ∧ k < before.length + item.lines.length := by
    intro k
    rw [editOf, hspans]
    simp only [Edit.covers, List.any_cons, List.any_nil, Bool.or_false, Span.holds_iff]
    omega
  have houtside : ∀ k, ¬ (before.length ≤ k ∧ k < before.length + item.lines.length) →
      (editOf text r).covers k = false := fun k hk => by
    rw [← Bool.not_eq_true, hcovers]
    exact hk
  have hafter : Edited (editOf text r) (before.length + item.lines.length) after after := by
    have hnone : ∀ k, before.length + item.lines.length ≤ k →
        k < before.length + item.lines.length + after.length → (editOf text r).covers k = false :=
      fun k hk _ => houtside k (by omega)
    have hall := edited_outside hnone (.nil _)
    rwa [List.append_nil] at hall
  have hitemEdited := LaidItem.edited (e := editOf text r) hitem.standard hitem.plain
    (ascending_ne_nil hitem.ne_nil) hlatest hitem.blank
    (fun k hk hk' => (hcovers k).2 ⟨hk, hk'⟩) hafter
  have hall : Edited (editOf text r) 0 (lines text)
      (before ++ ((item.updated r).lines.map (· ++ lineEnding text) ++ after)) := by
    rw [hlines]
    refine edited_outside (fun k _ hk => houtside k (by omega)) ?_
    rw [Nat.zero_add]
    exact hitemEdited
  rw [editText, ← hall.editLines_eq]
  rfl

end

/-! ## The document of the edited text -/

section
variable {w : Rewrite} {n : Nat} {ls : List (List Char)} {σ σ' τ : Reading} {doc : Node}

/-- Lines that are the same in both texts, and on which nothing is touched. -/
theorem alike_lines (h : Alike w ⟨0, 0⟩ [] [] σ σ') (hplace : σ.place = ⟨n, 0⟩)
    (hls : ∀ line ∈ ls, '\n' ∉ line)
    (huntouched : ∀ k, n ≤ k → k < n + ls.length → ∀ j, ¬ w.touched ⟨k, j⟩)
    (hrun : σ.run (flat ls) = some τ) :
    ∃ τ', σ'.run (flat ls) = some τ' ∧ Alike w ⟨0, 0⟩ [] [] τ τ' := by
  induction ls generalizing n σ σ' with
  | nil =>
    cases hrun
    exact ⟨σ', rfl, h⟩
  | cons line ls ih =>
    obtain ⟨hline, hls⟩ := List.forall_mem_cons.1 hls
    obtain ⟨ρ, hfirst, hmore⟩ := run_flat_cons.1 hrun
    rw [List.length_cons] at huntouched
    obtain ⟨ρ', hfirst', halike⟩ := run_alike_outermost h (untouched_of_columns hplace hline
      fun j _ => huntouched n (Nat.le_refl n) (by omega) j) hfirst
    have hρ : ρ.place = ⟨n + 1, 0⟩ := by rw [(line_of_run hfirst hline).2, hplace]
    obtain ⟨τ', hmore', hτ⟩ := ih halike hρ hls (fun k hk hk' => huntouched k (by omega) (by omega))
      hmore
    exact ⟨τ', run_flat_cons.2 ⟨ρ', hfirst', hmore'⟩, hτ⟩

end

section
variable {field : String} {versions : List String} {latest? : Option String} {r : Request}
  {text : List Char} {doc : Node} {item : LaidItem} {before after : List (List Char)}
  {ending : List Char}

/-- The lines of a text that is accepted are read. -/
theorem isRead_of_mem_lines {line : List Char} (hdoc : Node.ofText? text = some doc)
    (hline : line ++ ending ∈ lines text) : IsRead ending line := by
  obtain ⟨opened, place, hrun⟩ := exists_of_ofText? hdoc
  have hnewline : ∀ line ∈ lines text, '\n' ∉ line := fun _ hl => not_mem_of_mem_splitAt hl
  obtain ⟨pre, post, hsplit⟩ := List.append_of_mem hline
  rw [flat_lines, hsplit, flat_append, run_append_eq_some] at hrun
  obtain ⟨σ, hpre, hmore⟩ := hrun
  obtain ⟨ρ, hline', -⟩ := run_flat_cons.1 hmore
  obtain ⟨τ, hread, -⟩ := run_append_eq_some.1 hline'
  refine ⟨σ, τ, (line_of_run_flat (fun l hl => hnewline l ?_) rfl rfl hpre).1, hread⟩
  rw [hsplit]
  exact List.mem_append_left _ hl

/-- An item in the standard layout, in a text that is accepted, can be updated. -/
theorem updatable_make (hne : versions ≠ []) (hversions : ∀ v ∈ versions, Json.IsPlain v.toList)
    (hlatest : ∀ v ∈ latest?, Json.IsPlain v.toList) (hdoc : Node.ofText? text = some doc)
    (hstandard : item.IsStandard field)
    (hlines : lines text = before ++ (item.lines.map (· ++ lineEnding text) ++ after)) :
    item.Updatable (.make field versions latest?) (lineEnding text) := by
  have hmem : ∀ line ∈ item.lines.map (· ++ lineEnding text), line ∈ lines text := by
    intro line hline
    rw [hlines]
    exact List.mem_append_right _ (List.mem_append_left _ hline)
  have hwritable : IsWritable (.make field versions latest?) :=
    isWritable_make_of_isPlain hversions hlatest
  refine ⟨hstandard, fun m hm => ?_, hwritable, versions_make_ne_nil hne,
    Version.nodup_distinct versions, (isPlain_editOf hwritable text).ending,
    fun line hline => not_mem_of_mem_splitAt (hmem line hline)⟩
  refine LaidMember.isPlain_of_isRead (hstandard.members m hm) fun line hline =>
    isRead_of_mem_lines hdoc (hmem _ (List.mem_map_of_mem ?_))
  rw [LaidItem.lines]
  exact List.mem_cons_of_mem _ (List.mem_append_left _ (List.mem_flatMap.2 ⟨m, hm, hline⟩))

/-- The machine on the text and on the edited one: before the item, on it, and behind it. -/
theorem exists_runs (hitem : item.Updatable r ending) (hdoc : Node.ofText? text = some doc)
    (hlines : lines text = before ++ (item.lines.map (· ++ ending) ++ after)) :
    ∃ σ τ ρ ρ' ω ω' opened place, Reading.start.run (flat before) = some σ ∧
      RunsItem r ending item before.length σ σ τ ρ ρ' ω ω' ∧
      τ.run (flat after) = some ⟨[.list opened [doc]], .done, .idle, place⟩ ∧
      τ.place = ⟨before.length + item.lines.length, 0⟩ := by
  obtain ⟨opened, place, hrun⟩ := exists_of_ofText? hdoc
  have hnewline : ∀ line ∈ lines text, '\n' ∉ line := fun _ hl => not_mem_of_mem_splitAt hl
  have hbefore : ∀ line ∈ before, '\n' ∉ line := fun line hl =>
    hnewline line (hlines ▸ List.mem_append_left _ hl)
  rw [flat_lines, hlines, flat_append, run_append_eq_some] at hrun
  obtain ⟨σ, hfirst, hmore⟩ := hrun
  rw [flat_append, run_append_eq_some] at hmore
  obtain ⟨τ, hsecond, hlast⟩ := hmore
  obtain ⟨hidle, hplace⟩ := line_of_run_flat hbefore rfl rfl hfirst
  rw [Nat.zero_add] at hplace
  have hstart : Alike (itemRewrite r before.length item) ⟨0, 0⟩ [] [] Reading.start Reading.start :=
    ⟨.bottom rfl, rfl, .idle⟩
  have huntouched : ∀ k, 0 ≤ k → k < 0 + before.length → ∀ j,
      ¬ (itemRewrite r before.length item).touched ⟨k, j⟩ := by
    intro k _ hk j (h : k ∈ markedLines (before.length + 1) item.members)
    have := bounds_of_mem_markedLines h
    omega
  obtain ⟨σ', hfirst', halike⟩ := alike_lines hstart rfl hbefore huntouched hfirst
  obtain rfl : σ' = σ := Option.some.inj (hfirst'.symm.trans hfirst)
  obtain ⟨ρ, ρ', ω, ω', hruns⟩ := exists_runsItem hitem halike hidle hplace hsecond
  have hbehind := (line_of_run_flat hitem.newline hidle hplace hsecond).2
  rw [List.length_map] at hbehind
  exact ⟨σ', τ, ρ, ρ', ω, ω', opened, place, hfirst, hruns, hlast, hbehind⟩

end

/-! ## The item in the document -/

section
variable {n n' doc : Node} {o : ObjectAt} {name : String}

theorem mem_itemsObjectsAt {ns : List Node} (hn : n ∈ ns) (ho : o ∈ n.objectsAt) :
    o ∈ Node.itemsObjectsAt ns := by
  obtain ⟨pre, post, rfl⟩ := List.append_of_mem hn
  rw [Node.itemsObjectsAt_append]
  exact List.mem_append_right _ (List.mem_append_left _ ho)

theorem mem_membersObjectsAt {m : Member Node} {ms : List (Member Node)} (hm : m ∈ ms)
    (ho : o ∈ m.node.objectsAt) : o ∈ Node.membersObjectsAt ms := by
  obtain ⟨pre, post, rfl⟩ := List.append_of_mem hm
  rw [Node.membersObjectsAt_append]
  exact List.mem_append_right _ (List.mem_append_left _ ho)

theorem mem_objectsAt_of_mem_itemsOf (hn : n' ∈ n.itemsOf name) (ho : o ∈ n'.objectsAt) :
    o ∈ n.objectsAt := by
  obtain ⟨opened, closed, ms, m, opened', closed', ns, rfl, hm, hnode, hn⟩ :=
    Node.exists_of_mem_itemsOf hn
  refine List.mem_cons_of_mem _ (mem_membersObjectsAt hm ?_)
  rw [hnode]
  exact mem_itemsObjectsAt hn ho

theorem mem_objectsAt_of_mem_itemNodes (hn : n ∈ itemNodes doc) (ho : o ∈ n.objectsAt) :
    o ∈ doc.objectsAt := by
  obtain ⟨flavor, hflavor, hn⟩ := List.mem_flatMap.1 hn
  obtain ⟨product, hproduct, hflavor⟩ := List.mem_flatMap.1 hflavor
  exact mem_objectsAt_of_mem_itemsOf hproduct (mem_objectsAt_of_mem_itemsOf hflavor
    (mem_objectsAt_of_mem_itemsOf hn ho))

variable {r : Request} {marked : List Nat} {v : Value}

/-- An item whose members that hold versions are touched carries the request then. -/
theorem carries_of_touched (h : n.EditsTo (versionRewrite r marked) v)
    (htouched : ∀ name m, n.member? name = some m → isVersionName name = true →
      (versionRewrite r marked).touched m.place) : carries r v = true := by
  rw [carries, Bool.and_eq_true]
  constructor
  · split
    · next options hoptions =>
      obtain ⟨m, hm, hname, hedit, -⟩ := Node.exists_member_of_editsTo h hoptions
      obtain ⟨hnot, -⟩ | ⟨-, ⟨hother, -⟩ | ⟨-, os, hos, hmatches⟩⟩ := hedit
      · exact absurd (htouched _ m hm rfl) hnot
      · rw [hname] at hother
        exact absurd hother (by decide)
      · subst hos
        rw [optionTokens_options hoptions, hmatches]
        rfl
    · rfl
  · split
    · next t ht =>
      obtain ⟨u, hu, htoken⟩ := Option.bind_eq_some_iff.1 ht
      obtain ⟨m, hm, hname, hedit, -⟩ := Node.exists_member_of_editsTo h hu
      obtain ⟨hnot, -⟩ | ⟨-, ⟨-, hu'⟩ | ⟨hother, -⟩⟩ := hedit
      · exact absurd (htouched _ m hm rfl) hnot
      · subst hu'
        cases htoken
        rw [Bool.or_eq_true]
        exact .inr (decide_eq_true rfl)
      · rw [hname] at hother
        exact absurd hother (by decide)
    · rfl

end

/-! ## Updates -/

section
variable {field : String} {r : Request} {text : List Char} {doc n : Node} {item : LaidItem}
  {before after : List (List Char)} {w : Rewrite} {v : Value}

theorem onlyVersions_versionRewrite (r : Request) (marked : List Nat) :
    OnlyVersions (versionRewrite r marked) := by
  rintro m v ⟨-, ⟨hname, -⟩ | ⟨hname, -⟩⟩
  · rw [hname]
    rfl
  · rw [hname]
    rfl

/-- **The document of the edited text** is an edited copy, and the item stands in it with all
members touched that hold versions. -/
theorem exists_edited_document {σ τ ρ ρ' ω ω' : Reading} {opened place : Position}
    {ending : List Char} (hitem : item.Updatable r ending)
    (hlines : lines text = before ++ (item.lines.map (· ++ ending) ++ after))
    (hbefore : Reading.start.run (flat before) = some σ)
    (hruns : RunsItem r ending item before.length σ σ τ ρ ρ' ω ω')
    (hafter : τ.run (flat after) = some ⟨[.list opened [doc]], .done, .idle, place⟩)
    (hplace : τ.place = ⟨before.length + item.lines.length, 0⟩) :
    ∃ doc', Node.ofText? (unlines (before ++ ((item.updated r).lines.map (· ++ ending) ++ after))) =
        some doc' ∧
      doc.EditsTo (itemRewrite r before.length item) doc'.value ∧
      ∃ closed ms, ⟨⟨before.length, item.opening.length⟩, closed, ms⟩ ∈ doc.objectsAt ∧
        ∀ m ∈ ms, isVersionName m.name = true →
          (itemRewrite r before.length item).touched m.place := by
  obtain ⟨τ', hupdated, halike, closed, ms, hheld, htouched⟩ := hruns.behind hitem
  have hnewline : ∀ line ∈ after, '\n' ∉ line := by
    intro line hline
    have hmem : line ∈ lines text := by
      rw [hlines]
      exact List.mem_append_right _ (List.mem_append_right _ hline)
    exact not_mem_of_mem_splitAt hmem
  have huntouched : ∀ k, before.length + item.lines.length ≤ k →
      k < before.length + item.lines.length + after.length → ∀ j,
        ¬ (itemRewrite r before.length item).touched ⟨k, j⟩ := by
    intro k hk _ j (h : k ∈ markedLines (before.length + 1) item.members)
    have hbounds := bounds_of_mem_markedLines h
    have hlength : item.lines.length = (LaidItem.memberLines item.members).length + 2 := by
      simp [LaidItem.lines]
    omega
  obtain ⟨κ', hbehind, hκ⟩ := alike_lines halike hplace hnewline huntouched hafter
  obtain ⟨doc', hresult, hedits⟩ := editsTo_of_alike hκ
  refine ⟨doc', ?_, hedits, closed, ms, ?_, htouched⟩
  · rw [Node.ofText?, flat_unlines (by simp [LaidItem.lines]), flat_append, flat_append,
      run_append, hbefore, Option.bind_some, run_append, hupdated, Option.bind_some, hbehind,
      Option.bind_some, hresult]
  · have hmem := mem_heldObjects_of_run hafter hheld
    simpa [heldObjects, Node.itemsObjectsAt] using hmem

end

/-! ## The standard layout -/

section
variable {field : String} {versions : List String} {latest? : Option String} {text : List Char}
  {doc : Node} {item : LaidItem} {before after : List (List Char)} {document : Value}

/-- A text with one configuration item for the field, which is in the standard layout and names the
field as the text does nowhere else. The lines of the item stand between the other ones, and end
like those of the text. -/
structure HasStandardItem (field : String) (text : List Char) (doc : Node)
    (before : List (List Char)) (item : LaidItem) (after : List (List Char)) : Prop where
  standard : item.IsStandard field
  lines : lines text = before ++ (item.lines.map (· ++ lineEnding text) ++ after)
  only : ∃ n, (itemNodes doc).filter (isFor field ·.value) = [n] ∧
    n.openedAt? = some ⟨before.length, item.opening.length⟩
  key : (keyMatches field text).length = 1

/-- The node that is opened where an object is, is this object. -/
theorem eq_object_of_openedAt? {n : Node} {opened closed : Position} {ms : List (Member Node)}
    (hdoc : Node.ofText? text = some doc) (hn : n ∈ itemNodes doc)
    (hfor : isFor field n.value = true) (hopened : n.openedAt? = some opened)
    (hmem : ⟨opened, closed, ms⟩ ∈ doc.objectsAt) :
    n = .object opened closed ms := by
  obtain ⟨opened₀, place, hrun⟩ := exists_of_ofText? hdoc
  have hheld : ∀ o ∈ doc.objectsAt, o ∈ heldObjects [.list opened₀ [doc]] := by
    intro o ho
    simpa [heldObjects, Node.itemsObjectsAt] using ho
  cases n with
  | scalar spelling v => cases hopened
  | list opened' closed' ns => cases hfor
  | object opened' closed' ms' =>
    cases hopened
    have hmem' : ⟨opened, closed', ms'⟩ ∈ doc.objectsAt :=
      mem_objectsAt_of_mem_itemNodes hn List.mem_cons_self
    cases eq_of_opened_eq hrun (hheld _ hmem) (hheld _ hmem') rfl
    rfl

/-- **The exact update of an item in the standard layout**: the text is answered with the updated
item in the place of the item, and every other line as it is. -/
theorem update_standardItem (hne : versions ≠ [])
    (hversions : ∀ v ∈ versions, v ≠ "" ∧ Json.IsPlain v.toList)
    (hlatest : ∀ v ∈ latest?, Json.IsPlain v.toList) (hparse : parse text = .ok document)
    (hdoc : Node.ofText? text = some doc) (h : HasStandardItem field text doc before item after) :
    update text (.make field versions latest?) =
      .ok (unlines (before ++ ((item.updated (.make field versions latest?)).lines.map
        (· ++ lineEnding text) ++ after))) := by
  obtain ⟨hstandard, hlines, ⟨n, honly, hopened⟩, hkey⟩ := h
  obtain ⟨doc₀, hdoc₀, rfl⟩ := exists_node_of_parse (parse_eq_ok.1 hparse)
  obtain rfl : doc = doc₀ := Option.some.inj (hdoc.symm.trans hdoc₀)
  have hitem := updatable_make hne (fun v hv => (hversions v hv).2) hlatest hdoc hstandard hlines
  generalize hr : Request.make field versions latest? = r at hitem ⊢
  have hfield : r.field = field := hr ▸ rfl
  obtain ⟨σ, τ, ρ, ρ', ω, ω', opened, place, hbefore, hruns, hafter, hplace⟩ :=
    exists_runs hitem hdoc hlines
  -- the text that is written
  have hspans := hruns.owningSpans_eq hitem hlines (hfield ▸ hkey) hbefore hafter
  have hne' : r.latest ≠ "" :=
    hr ▸ Request.latest_make_ne_empty field hne (fun v hv => (hversions v hv).1) latest?
  have hedit := editText_eq hitem hne' hlines hspans
  -- the document that is read from it
  obtain ⟨doc', hdoc', hedits, closed, ms, hmem, htouched⟩ :=
    exists_edited_document hitem hlines hbefore hruns hafter hplace
  have hdeeper : ∀ m v, (itemRewrite r before.length item).may m v →
      v.depth ≤ m.node.value.depth + 0 := fun _ _ hmay => hmay.1
  have hdepth : doc'.value.depth ≤ depthLimit :=
    (Node.EditsTo.depth_le hdeeper hedits).trans (depth_le_of_parse (parse_eq_ok.1 hparse))
  have hparse' := parse_eq_ok.2 (parse_of_ofText? hdoc' hdepth)
  -- its item for the field
  have hn : n ∈ itemNodes doc ∧ isFor field n.value = true :=
    List.mem_filter.1 (honly ▸ List.mem_cons_self)
  obtain rfl := eq_object_of_openedAt? hdoc hn.1 hn.2 hopened hmem
  obtain ⟨u, hu, hedit'⟩ :=
    exists_item?_of_editsTo (onlyVersions_versionRewrite r _) hedits honly
  have hcarries : carries r u = true := carries_of_touched hedit' fun name m hm hname =>
    htouched m (Node.mem_of_member? hm).1 ((Node.mem_of_member? hm).2 ▸ hname)
  obtain ⟨first, hfirst, -⟩ := exists_item?_of_editsTo (w := Rewrite.none) (fun _ _ h => h.elim)
    (editsTo_none_of_ofText? hdoc) honly
  rw [← hfield] at hu hfirst
  simp only [update, hparse, hfirst, hedit, hparse', hu, Option.filter_some, hcarries, if_true]

end

/-- An item with its key behind all other members, and with options that are spread over lines. One
of the other members is an object with a default value of its own. -/
def keyLast : LaidItem where
  opening := "  ".toList
  members := [
    .options ⟨"    ".toList, [], [' ']⟩ (.spread "      ".toList "        ".toList)
      [⟨"Redis 6", "6"⟩, ⟨"Redis 5", "5"⟩] "    ".toList [','],
    .default ⟨"    ".toList, [], [' ']⟩ "6" [','],
    .plain ⟨"    ".toList, [], [' ']⟩ "custom".toList "\x7b\"default_value\": [5]\x7d".toList [','],
    .plain ⟨"    ".toList, [' '], []⟩ "key".toList (quoted "redis_version") []]
  closing := "  ".toList
  trail := []

/-- The lines of a catalog before its one item, and those behind it. All but the last end with a
carriage return. -/
def aroundItem : List (List Char) × List (List Char) :=
  (["\x7b\"products\":[\x7b\"flavors\":[\x7b\r".toList, "\"configuration\": [\r".toList],
    ["], \"options\": [] \x7d]\x7d]\x7d\r".toList, []])

/-- A catalog with the given item. -/
def withItem (item : LaidItem) : List Char :=
  unlines (aroundItem.1 ++ (item.lines.map (· ++ ['\r']) ++ aroundItem.2))

theorem exists_eq_ok {ε α : Type} {x : Except ε α} (h : x.isOk = true) : ∃ a, x = .ok a := by
  cases x with
  | ok a => exact ⟨a, rfl⟩
  | error e => cases h

theorem isStandard_keyLast : keyLast.IsStandard "redis_version" := by
  have hmargins : ∀ margins ∈ [(⟨"    ".toList, [], [' ']⟩ : Margins), ⟨"    ".toList, [' '], []⟩],
      margins.IsBlank := by
    simp only [List.forall_mem_cons]
    exact ⟨by constructor <;> decide +kernel, by constructor <;> decide +kernel, by simp⟩
  have hname : ∀ name : String, Json.IsPlain name.toList → isVersionName name = false →
      ∃ s, text? name.toList = some s ∧ isVersionName s = false :=
    fun name hplain hname => ⟨name, text?_plain hplain, hname⟩
  refine ⟨by decide +kernel, fun m hm => ?_, ⟨⟨"    ".toList, [' '], []⟩, [], ?_⟩,
    by decide +kernel, by decide +kernel⟩
  · simp only [keyLast, List.mem_cons, List.not_mem_nil, or_false] at hm
    rcases hm with rfl | rfl | rfl | rfl
    · have hdeepens : byteLength "      ".toList < byteLength "        ".toList := by decide +kernel
      refine .options (hmargins _ (by simp)) (by simp) ⟨?_, ?_⟩ hdeepens (by simp) ?_ ?_ ?_ <;>
        decide +kernel
    · exact .default (hmargins _ (by simp)) (by decide +kernel) (by decide +kernel)
    · exact .plain (hmargins _ (by simp)) (hname _ (by decide +kernel) rfl)
        (exists_eq_ok (by decide +kernel)) (by decide +kernel)
    · exact .plain (hmargins _ (by simp)) (hname _ (by decide +kernel) rfl)
        (exists_eq_ok (by decide +kernel)) (by decide +kernel)
  · simp [keyLast]

theorem isSome_ofText?_keyLast : (Node.ofText? (withItem keyLast)).isSome = true := by
  decide +kernel

theorem update_standardItem_keyLast :
    update (withItem keyLast) (.make "redis_version" ["8", "7"] (some "7")) =
      .ok (withItem (keyLast.updated (.make "redis_version" ["8", "7"] (some "7")))) := by
  have hdoc := (Option.some_get isSome_ofText?_keyLast).symm
  generalize hget : (Node.ofText? (withItem keyLast)).get isSome_ofText?_keyLast = doc at hdoc
  have hending : lineEnding (withItem keyLast) = ['\r'] := by decide +kernel
  have hplace : ((itemNodes doc).filter (isFor "redis_version" ·.value)).map Node.openedAt? =
      [some ⟨aroundItem.1.length, keyLast.opening.length⟩] := by
    subst hget
    decide +kernel
  obtain ⟨n, honly, hopened⟩ := List.map_eq_singleton_iff.1 hplace
  obtain ⟨document, hdocument⟩ : ∃ document, parse (withItem keyLast) = .ok document :=
    exists_eq_ok (by decide +kernel)
  have h : HasStandardItem "redis_version" (withItem keyLast) doc aroundItem.1 keyLast
      aroundItem.2 :=
    ⟨isStandard_keyLast, by rw [hending]; decide +kernel, ⟨n, honly, hopened⟩, by decide +kernel⟩
  have hversions : ∀ v ∈ ["8", "7"], v ≠ "" ∧ Json.IsPlain v.toList := by decide +kernel
  have hlatest : ∀ v ∈ some "7", Json.IsPlain v.toList := by decide +kernel
  have hupdate := update_standardItem (by simp) hversions hlatest hdocument hdoc h
  rwa [hending] at hupdate

end VersionAlignment.Artifact.Catalog

import VersionAlignment.Proofs.Catalog.StandardItem
import VersionAlignment.Proofs.Catalog.UpToDate
import VersionAlignment.Proofs.Json.Acceptance
import VersionAlignment.Proofs.Json.Numerals
import VersionAlignment.Proofs.Json.Scalars

/-!
# Default values that are numbers

A default value may be a number, and is read twice then: as a number, whose text is the version
that is declared, and by the scan of the lines, which takes the numeral as it is spelled. An update
to the version that the numeral spells keeps its line. It is answered if that version is also the
text of the number, and is refused otherwise, as the item that is read again declares another one.

The two are the same for short numerals: for integers that fit 64 bits, and for decimals of a few
digits without a zero at their end that could be left out.

## Results

* `editLines_of_reached`: an edit, around a line that it keeps.
* `update_numericDefault`: what is read from a numeral, and what becomes of an update to it.
* `not_update_numericDefault_sevenTen`: a numeral with a zero at its end is read as another version.
-/

set_option autoImplicit false

namespace VersionAlignment.Artifact.Catalog

open Text Json

/-! ## A line that the edit comes to -/

section
variable {e : Edit} {ls pre post rest out block more : List (List Char)} {line : List Char}
  {n : Nat}

theorem StaysOpen.gathered_eq {depth : Int} {ls : List (List Char)} (h : StaysOpen depth ls) :
    gathered depth ls = ls := by
  fun_induction StaysOpen depth ls with
  | case1 => rfl
  | case2 depth line ls ih => rw [gathered, if_neg (Int.not_le.2 h.1), ih h.2]

/-- A line that is kept is not the first one of an array that is gathered, so it is skipped if it is
one of its lines. -/
theorem Edit.Gathers.skips {first head : List Char} (h : e.Gathers n first head)
    (hlines : ls.drop n = first :: more) (hline : first :: more = pre ++ line :: post)
    (hkeeps : e.Keeps (n + pre.length) line)
    (hlength : pre.length < (gathered 0 (first :: more)).length) : e.Skips ls (n + pre.length) := by
  refine ⟨n, Nat.lt_add_of_pos_right (List.length_pos_iff.2 ?_), ?_, ?_⟩
  · rintro rfl
    cases hline
    have hnone := (hkeeps h.covers).2
    rw [h.start] at hnone
    cases hnone
  · exact ⟨h.covers, first, (getElem?_of_drop hlines).1, by rw [h.start]; rfl⟩
  · rw [Edit.arrayAt, hlines]
    exact Nat.add_lt_add_left hlength n

/-- A line that is kept and not skipped splits an edit in two. -/
theorem Edited.split (h : Edited e n rest out) (hrest : rest = pre ++ line :: post)
    (hlines : ls.drop n = rest) (hkeeps : e.Keeps (n + pre.length) line)
    (hreached : ¬ e.Skips ls (n + pre.length)) :
    ∃ front behind, Edited e n pre front ∧ Edited e (n + pre.length + 1) post behind ∧
      out = front ++ line :: behind := by
  induction h generalizing pre with
  | nil => simp at hrest
  | @kept n first more out hfirst hmore ih =>
    cases pre with
    | nil =>
      cases hrest
      exact ⟨[], out, .nil n, hmore, rfl⟩
    | cons _ pre =>
      cases hrest
      have hnumber : n + 1 + pre.length = n + (first :: pre).length := by
        rw [List.length_cons]
        omega
      obtain ⟨front, behind, hfront, hbehind, rfl⟩ :=
        ih rfl (getElem?_of_drop hlines).2 (hnumber ▸ hkeeps) (hnumber ▸ hreached)
      exact ⟨first :: front, behind, .kept hfirst hfront, hnumber ▸ hbehind, rfl⟩
  | @default n first first' more out hcovers hnew hmore ih =>
    cases pre with
    | nil =>
      cases hrest
      rw [(hkeeps hcovers).1] at hnew
      cases hnew
    | cons _ pre =>
      cases hrest
      have hnumber : n + 1 + pre.length = n + (first :: pre).length := by
        rw [List.length_cons]
        omega
      obtain ⟨front, behind, hfront, hbehind, rfl⟩ :=
        ih rfl (getElem?_of_drop hlines).2 (hnumber ▸ hkeeps) (hnumber ▸ hreached)
      exact ⟨first' :: front, behind, .default hcovers hnew hfront, hnumber ▸ hbehind, rfl⟩
  | @options n first head taken more out hgathers hcloses hmore ih =>
    have hbehind : ∀ w, pre = (first :: taken) ++ w → more = w ++ line :: post →
        ∃ front behind, Edited e n pre front ∧ Edited e (n + pre.length + 1) post behind ∧
          e.settle ⟨head, first :: taken⟩ ++ out = front ++ line :: behind := by
      rintro w rfl hmore'
      have hnumber : n + (first :: taken).length + w.length =
          n + ((first :: taken) ++ w).length := by
        rw [List.length_append, Nat.add_assoc]
      have hdrop : ls.drop (n + (first :: taken).length) = more := by
        rw [← List.drop_drop, hlines, List.drop_left]
      obtain ⟨front, behind, hfront, hbehind, rfl⟩ :=
        ih hmore' hdrop (hnumber ▸ hkeeps) (hnumber ▸ hreached)
      exact ⟨_, behind, .options hgathers hcloses hfront, hnumber ▸ hbehind,
        (List.append_assoc ..).symm⟩
    rcases List.append_eq_append_iff.1 hrest with ⟨w, hpre, hmore'⟩ | ⟨w, htaken, hmore'⟩
    · exact hbehind w hpre hmore'
    · cases w with
      | nil => exact hbehind [] (by simpa using htaken.symm) hmore'.symm
      | cons c w =>
        -- the line is one of the array
        have hlength : pre.length < (first :: taken).length := by
          rw [htaken, List.length_append, List.length_cons]
          omega
        rw [← hcloses.gathered_eq more] at hlength
        exact absurd (hgathers.skips hlines hrest hkeeps hlength) hreached
  | @unclosed n first head more hgathers hopen =>
    have hlength : pre.length < (first :: more).length := by
      rw [hrest, List.length_append, List.length_cons]
      omega
    rw [← hopen.gathered_eq] at hlength
    exact absurd (hgathers.skips hlines hrest hkeeps hlength) hreached

/-- **An edit, around a line that it keeps**: the lines before it and those behind it are edited for
themselves, if the line is not gathered with an array. -/
theorem editLines_of_reached (hlines : ls = pre ++ line :: post) (hkeeps : e.Keeps pre.length line)
    (hreached : ¬ e.Skips ls pre.length) :
    editLines e none 0 ls =
      editLines e none 0 pre ++ line :: editLines e none (pre.length + 1) post := by
  obtain ⟨front, behind, hfront, hbehind, hsplit⟩ := (edited_editLines e 0 ls).split hlines rfl
    (by rwa [Nat.zero_add]) (by rwa [Nat.zero_add])
  rw [Nat.zero_add] at hbehind
  rw [hsplit, hfront.editLines_eq, hbehind.editLines_eq]

end

/-! ## Lines with a numeral -/

/-- A line with a default value that is a numeral. The name of the member is as it is spelled. -/
structure NumericLine where
  margins : Margins
  name : List Char
  numeral : Numeral
  trail : List Char

namespace NumericLine

/-- The text of the line. -/
def text (l : NumericLine) : List Char :=
  l.margins.lead l.name ++ (l.numeral.spelled ++ l.trail)

/-- The version that the numeral spells. -/
def version (l : NumericLine) : String := String.ofList l.numeral.spelled

/-- Nothing else is on the line. -/
structure IsAlone (l : NumericLine) : Prop where
  margins : l.margins.IsBlank
  name : text? l.name = some "default_value"
  trail : IsTrail l.trail

end NumericLine

section
variable {x : Numeral} {l : NumericLine} {trail : List Char}

/-- The scan takes the numeral as it is spelled. -/
theorem take?_spelled (htrail : IsTrail trail) :
    defaultValue.take? (x.spelled ++ trail) = some (x.spelled, trail) := by
  obtain ⟨d, s, hspelled, hd, hs⟩ := x.exists_spelled_eq_cons
  rw [hspelled, List.cons_append]
  refine take?_numeral (.inl rfl) hd (fun c hc => by simpa [isNumberChar] using hs c hc) ?_
  rintro c cs rfl
  rcases htrail c List.mem_cons_self with hblank | rfl
  · simp only [Cursor.isBlank, Bool.or_eq_true, decide_eq_true_eq] at hblank
    rcases hblank with ((rfl | rfl) | rfl) | rfl <;> decide
  · decide

theorem isPlain_spelled (x : Numeral) : Json.IsPlain x.spelled :=
  isPlain_of_isNumberChar fun _ hc => by simpa [isNumberChar] using Numeral.isDigit_or_point hc

/-- Whatever the scan reads on the line is the numeral. -/
theorem NumericLine.IsAlone.token_eq (h : l.IsAlone) {found : DefaultLine}
    (hfound : DefaultLine.ofLine? l.text = some found) : found.token = l.numeral.spelled := by
  rw [DefaultLine.ofLine?, defaultLead_eq] at hfound
  split at hfound
  · cases hfound
  · next lead rest hlead =>
    have hname :=
      eq_of_take?_memberLead h.margins (text?_takes h.name).1 isPlain_default_value hlead
    obtain ⟨d, s, hspelled, hd, -⟩ := l.numeral.exists_spelled_eq_cons
    have htake : (memberLead "default_value").take? l.text =
        some (l.margins.lead l.name, l.numeral.spelled ++ l.trail) := by
      rw [text, hname]
      refine (h.margins.toLead "default_value").take? fun c cs hcons => ?_
      rw [hspelled] at hcons
      cases hcons
      exact isBlank_of_isAlphanum (by rw [Char.isAlphanum, hd, Bool.or_true])
    rw [htake] at hlead
    cases hlead
    rw [take?_spelled h.trail] at hfound
    cases hfound
    exact DefaultLine.token_of_notMem fun hmem => (isPlain_spelled _ _ hmem).2.1 rfl

/-- The line is kept by an edit for the version that the numeral spells. -/
theorem NumericLine.IsAlone.keeps {e : Edit} (h : l.IsAlone)
    (hlatest : e.request.latest = l.version) (n : Nat) : e.Keeps n l.text := by
  intro _
  constructor
  · rw [newDefault?]
    split
    · rfl
    · next found hfound =>
      have hsame : found.token = e.request.latest.toList := by
        rw [h.token_eq hfound, hlatest, version, String.toList_ofList]
      exact if_pos (.inr hsame)
  · exact start?_of_take?_eq_none
      (take?_memberLead_of_ne h.margins h.name isPlain_options (by decide))

end

/-! ## Documents with a numeral -/

/-- The line on which an item names its default value, and the text of that value if it is neither
a list nor an object. -/
def defaultText? (n : Node) : Option (Nat × List Char) :=
  match n.member? "default_value" with
  | some ⟨_, place, .scalar spelling _⟩ => some (place.line, spelling)
  | _ => none

theorem defaultText?_eq_some {n : Node} {k : Nat} {spelling : List Char}
    (h : defaultText? n = some (k, spelling)) :
    ∃ m v, n.member? "default_value" = some m ∧ m.place.line = k ∧ m.node = .scalar spelling v := by
  rw [defaultText?] at h
  split at h
  · next hm =>
    cases h
    exact ⟨_, _, hm, rfl, rfl⟩
  · cases h

/-- The one item for the field has no array of options. Its default value is the numeral of a line
of its own, which stands between the other lines. -/
structure HasNumericDefault (field : String) (text : List Char) (doc : Node)
    (before : List (List Char)) (l : NumericLine) (after : List (List Char)) : Prop where
  alone : l.IsAlone
  lines : lines text = before ++ l.text :: after
  only : ∃ n, (itemNodes doc).filter (isFor field ·.value) = [n] ∧ hasOptions n.value = false ∧
    defaultText? n = some (before.length, l.numeral.spelled)

section
variable {e : Edit} {ls : List (List Char)} {n : Node} {m : Member Node} {v item : Value}
  {r : Request} {t field : String}

/-- What becomes of a member is at most one level deeper. -/
theorem depth_le_of_may (h : (e.rewrite ls).may m v) : v.depth ≤ m.node.value.depth + 1 := by
  obtain ⟨-, ⟨_, _, -, -, -, -, -, rfl⟩ | ⟨_, _, _, _, items, -, -, -, hnode, rfl⟩⟩ := h
  · exact Nat.zero_le _
  · split
    · exact Nat.le_succ _
    · have hnew : (optionsValue e.request.ascending).depth ≤ 2 := by
        rw [optionsValue, Value.depth, Nat.succ_le_succ_iff, Value.itemsDepth_le_iff]
        simp [optionValue, Value.depth, Value.membersDepth]
      rw [hnode, Node.value, Value.depth]
      omega

/-- An edit of a document changes nothing but default values and arrays of options, and none of them
on the given line. -/
structure Spares (w : Rewrite) (k : Nat) : Prop where
  versions : OnlyVersions w
  lists : ∀ m v, w.may m v → m.name = "options" → m.node.value.isList = true
  line : ∀ m v, w.may m v → m.place.line ≠ k

theorem spares_none (k : Nat) : Spares Rewrite.none k :=
  ⟨fun _ _ h => h.elim, fun _ _ h => h.elim, fun _ _ h => h.elim⟩

/-- An edit of the lines spares a line that it keeps. -/
theorem spares_rewrite {k : Nat} {line : List Char} (hline : ls[k]? = some line)
    (hkeeps : e.Keeps k line) : Spares (e.rewrite ls) k where
  versions := onlyVersions_rewrite e ls
  lists := by
    rintro m v ⟨-, ⟨_, _, -, -, -, hother, -, -⟩ | ⟨_, _, _, _, _, -, -, -, hnode, -⟩⟩ hname
    · rw [hname] at hother
      exact absurd hother (by decide)
    · rw [hnode]
      rfl
  line := by
    rintro m v hmay rfl
    obtain ⟨⟨line', hfrom, htouched⟩, -⟩ := touches_of_may hmay
    obtain ⟨hline', -⟩ := lineFrom?_eq_some.1 hfrom
    rw [hline] at hline'
    cases hline'
    exact htouched hkeeps

/-- An edited item has an array of options only if the item had one. -/
theorem hasOptions_of_editsTo {w : Rewrite} {k : Nat} (hspares : Spares w k) (h : n.EditsTo w v)
    (hv : hasOptions v = true) : hasOptions n.value = true := by
  obtain ⟨u, hu, hlist⟩ := (Option.any_eq_true _ _).1 hv
  obtain ⟨m, -, hname, hedit, hold⟩ := Node.exists_member_of_editsTo h hu
  rw [hasOptions, hold]
  rcases hedit with ⟨-, hsame⟩ | hmay
  · exact hsame.isList_eq.trans hlist
  · exact hspares.lists m u hmay hname

/-- An item without options carries the request if its default value is the latest version. -/
theorem carries_of_defaultToken? (hoptions : hasOptions item = false)
    (hdefault : defaultToken? item = some t) (hlatest : r.latest ≠ "") :
    carries r item = decide (t = r.latest) := by
  have hnone : ∀ options ∈ item.member? "options", options.isList = false := by
    intro options hmem
    rw [hasOptions, Option.mem_def.1 hmem] at hoptions
    exact hoptions
  rw [carries, hdefault]
  cases hmem : item.member? "options" with
  | none => simp [hlatest]
  | some options => simp [hlatest, hnone options hmem]

end

section
variable {field : String} {text : List Char} {doc : Node} {before after : List (List Char)}
  {l : NumericLine}

theorem NumericLine.version_ne_empty (l : NumericLine) : l.version ≠ "" := by
  obtain ⟨d, s, hspelled, -, -⟩ := l.numeral.exists_spelled_eq_cons
  intro hempty
  have hnil := congrArg String.toList hempty
  rw [version, String.toList_ofList, hspelled] at hnil
  cases hnil

theorem ofList_text_ne_empty (x : Number) : String.ofList x.text ≠ "" := fun hempty =>
  Number.text_ne_nil x (by simpa using congrArg String.toList hempty)

/-- **The default value of the item** is the same number in every edited copy of the document, if
the edit spares its line. -/
theorem HasNumericDefault.exists_number (h : HasNumericDefault field text doc before l after)
    (hdoc : Node.ofText? text = some doc) :
    ∃ x, atom? l.numeral.spelled = some (.number x) ∧
      ∀ w v, Spares w before.length → doc.EditsTo w v → ∃ item, item? field v = some item ∧
        hasOptions item = false ∧ defaultToken? item = some (String.ofList x.text) := by
  obtain ⟨n, honly, hoptions, htext⟩ := h.only
  obtain ⟨m, v, hm, hplace, hnode⟩ := defaultText?_eq_some htext
  have hn : n ∈ (itemNodes doc).filter (isFor field ·.value) := honly ▸ List.mem_cons_self
  have hquote : l.numeral.spelled.head? ≠ some '"' := fun hhead =>
    (isPlain_spelled _ _ (List.mem_of_mem_head? hhead)).2.1 rfl
  have hatom := atom?_of_mem_members hdoc (mem_members_of_mem_itemNodes (List.mem_filter.1 hn).1
    (Node.mem_members_of_member? hm)) hnode hquote
  obtain ⟨x, rfl⟩ := l.numeral.exists_number_of_atom? hatom
  refine ⟨x, hatom, fun w v hspares hedits => ?_⟩
  obtain ⟨item, hitem, hedit⟩ := exists_item?_of_editsTo hspares.versions hedits honly
  obtain ⟨u, hu, hmember⟩ := Node.exists_member?_of_editsTo hedit hm
  obtain rfl : u = .number x := by
    rcases hmember with ⟨-, hsame⟩ | hmay
    · rw [hnode] at hsame
      exact hsame.1
    · exact absurd hplace (hspares.line m u hmay)
  refine ⟨item, hitem, ?_, by rw [defaultToken?, hu]; rfl⟩
  cases hhas : hasOptions item with
  | false => rfl
  | true =>
    rw [hasOptions_of_editsTo hspares hedit hhas] at hoptions
    cases hoptions

/-- **A default value that is a numeral** is read as the text of its number, which is the numeral if
it is short. An update to the version that the numeral spells keeps its line; it is answered if this
is the version that is read, and refused if it is not. -/
theorem update_numericDefault {r : Request} (hversions : ∀ v ∈ r.versions, Json.IsPlain v.toList)
    (hlatest : r.latest = l.version) (hdoc : Node.ofText? text = some doc)
    (hdepth : doc.value.depth < depthLimit)
    (h : HasNumericDefault r.field text doc before l after)
    (hclear : AllEndClear (editOf text r) (lines text) doc.members)
    (hwhole : AllTakenWhole (editOf text r) (lines text) doc.members)
    (hreached : ¬ (editOf text r).Skips (lines text) before.length) :
    ∃ x, atom? l.numeral.spelled = some (.number x) ∧
      extract text r.field = .ok (.single (String.ofList x.text)) ∧
      (l.numeral.IsShort → x.text = l.numeral.spelled) ∧
      update text r =
        if x.text = l.numeral.spelled then
          .ok (unlines (editLines (editOf text r) none 0 before ++
            l.text :: editLines (editOf text r) none (before.length + 1) after))
        else .error (.malformed (.unlocated r.field)) := by
  have hwritable : IsWritable r := by
    refine ⟨hversions, ?_⟩
    rw [hlatest, NumericLine.version, String.toList_ofList]
    exact isPlain_spelled l.numeral
  have hline : (lines text)[before.length]? = some l.text := by rw [h.lines]; simp
  have hkeeps : (editOf text r).Keeps before.length l.text := h.alone.keeps hlatest _
  obtain ⟨x, hatom, hread⟩ := h.exists_number hdoc
  -- the document, and that of the edited text
  have hparse : parse text = .ok doc.value :=
    parse_eq_ok.2 (parse_of_ofText? hdoc (Nat.le_of_lt hdepth))
  obtain ⟨doc', hdoc', hedits⟩ := exists_node_of_edit (isPlain_editOf hwritable text) hdoc
    (.inr ⟨hwhole, hclear⟩) hclear.allEndWell
  have hdepth' : doc'.value.depth ≤ depthLimit :=
    (Node.EditsTo.depth_le (fun _ _ => depth_le_of_may) hedits).trans hdepth
  have hparse' := parse_eq_ok.2 (parse_of_ofText? hdoc' hdepth')
  rw [editLines_of_reached h.lines hkeeps hreached] at hparse'
  -- the item in either of them
  obtain ⟨item, hitem, hoptions, hdefault⟩ :=
    hread _ _ (spares_none _) (editsTo_none_of_ofText? hdoc)
  obtain ⟨item', hitem', hoptions', hdefault'⟩ := hread _ _ (spares_rewrite hline hkeeps) hedits
  refine ⟨x, hatom, ?_, fun hshort => Numeral.text_eq_of_atom? hshort hatom, ?_⟩
  · rw [extract, hparse]
    simp only [hitem]
    exact declared_of_defaultToken? r.field hoptions hdefault (ofList_text_ne_empty x)
  · have hedit : editText text r = unlines (editLines (editOf text r) none 0 before ++
        l.text :: editLines (editOf text r) none (before.length + 1) after) := by
      rw [← editLines_of_reached h.lines hkeeps hreached]
      rfl
    have hcarries : carries r item' = decide (x.text = l.numeral.spelled) := by
      rw [carries_of_defaultToken? hoptions' hdefault' (hlatest ▸ l.version_ne_empty), hlatest,
        NumericLine.version, decide_eq_decide, String.ofList_inj]
    simp only [update, hparse, hitem, hedit, hparse', hitem', Option.filter_some, hcarries,
      decide_eq_true_eq]
    by_cases htext : x.text = l.numeral.spelled
    · rw [if_pos htext, if_pos htext]
    · rw [if_neg htext, if_neg htext]

end

/-- The line of a default value. -/
def redisLine (numeral : Numeral) : NumericLine :=
  ⟨⟨[' ', ' '], [], [' ']⟩, "default_value".toList, numeral, [',', '\r']⟩

theorem isAlone_redisLine (numeral : Numeral) : (redisLine numeral).IsAlone where
  margins := ⟨(by decide : AllBlank [' ', ' ']), (by decide : AllBlank []),
    (by decide : AllBlank [' '])⟩
  name := text?_plain isPlain_default_value
  trail := (by decide : IsTrail [',', '\r'])

/-- The lines of a catalog before the default value of its one item, and those behind it. The item
holds an object with a default value of its own. -/
def aroundDefault (inner : String) : List (List Char) × List (List Char) :=
  (["\x7b\"products\":[\x7b\"flavors\":[\x7b\"configuration\":[\x7b".toList,
      "\"key\":\"redis_version\",".toList],
    ["\"size\":\x7b".toList, fieldText "default_value" inner, "\x7d\x7d]\x7d]\x7d]\x7d".toList])

/-- A catalog with the numeral as its default value. -/
def numericCatalog (numeral : Numeral) (inner : String) : List Char :=
  unlines ((aroundDefault inner).1 ++ (redisLine numeral).text :: (aroundDefault inner).2)

theorem hasNumericDefault_numericCatalog {numeral : Numeral} {inner : String} {doc : Node}
    (hlines : lines (numericCatalog numeral inner) =
      (aroundDefault inner).1 ++ (redisLine numeral).text :: (aroundDefault inner).2)
    (honly : ((itemNodes doc).filter (isFor "redis_version" ·.value)).map
      (fun n => (hasOptions n.value, defaultText? n)) = [(false, some (2, numeral.spelled))]) :
    HasNumericDefault "redis_version" (numericCatalog numeral inner) doc (aroundDefault inner).1
      (redisLine numeral) (aroundDefault inner).2 := by
  obtain ⟨n, hn, hfacts⟩ := List.map_eq_singleton_iff.1 honly
  obtain ⟨hoptions, hdefault⟩ := Prod.mk.inj hfacts
  exact ⟨isAlone_redisLine numeral, hlines, n, hn, hoptions, hdefault⟩

def sevenTwo : Numeral :=
  ⟨['7'], ['2'], List.all_eq_true.1 rfl, List.all_eq_true.1 rfl, by decide, by decide⟩

theorem isSome_ofText?_sevenTwo : (Node.ofText? (numericCatalog sevenTwo "4")).isSome = true := by
  decide +kernel

theorem update_numericDefault_sevenTwo :
    extract (numericCatalog sevenTwo "4") "redis_version" = .ok (.single "7.2") ∧
      update (numericCatalog sevenTwo "4") ⟨"redis_version", ["7.2"], "7.2"⟩ =
        .ok (numericCatalog sevenTwo "7.2") := by
  have hdoc := (Option.some_get isSome_ofText?_sevenTwo).symm
  generalize hget : (Node.ofText? (numericCatalog sevenTwo "4")).get isSome_ofText?_sevenTwo = doc
    at hdoc
  have hfacts : doc.value.depth < depthLimit ∧
      ((itemNodes doc).filter (isFor "redis_version" ·.value)).map
        (fun n => (hasOptions n.value, defaultText? n)) = [(false, some (2, sevenTwo.spelled))] ∧
      AllEndClear (editOf (numericCatalog sevenTwo "4") ⟨"redis_version", ["7.2"], "7.2"⟩)
        (lines (numericCatalog sevenTwo "4")) doc.members ∧
      AllTakenWhole (editOf (numericCatalog sevenTwo "4") ⟨"redis_version", ["7.2"], "7.2"⟩)
        (lines (numericCatalog sevenTwo "4")) doc.members ∧
      ¬ (editOf (numericCatalog sevenTwo "4") ⟨"redis_version", ["7.2"], "7.2"⟩).Skips
        (lines (numericCatalog sevenTwo "4")) (aroundDefault "4").1.length := by
    subst hget
    decide +kernel
  obtain ⟨hdepth, honly, hclear, hwhole, hreached⟩ := hfacts
  have h : HasNumericDefault "redis_version" (numericCatalog sevenTwo "4") doc _ _ _ :=
    hasNumericDefault_numericCatalog (by decide +kernel) honly
  obtain ⟨x, -, hread, hshort, hupdate⟩ :=
    update_numericDefault (by decide +kernel) rfl hdoc hdepth h hclear hwhole hreached
  have htext : x.text = sevenTwo.spelled := hshort (by decide +kernel)
  rw [htext] at hread hupdate
  refine ⟨hread, hupdate.trans (congrArg Except.ok ?_)⟩
  decide +kernel

/-- A numeral with a zero at its end. -/
def sevenTen : Numeral :=
  ⟨['7'], ['1', '0'], List.all_eq_true.1 rfl, List.all_eq_true.1 rfl, by decide, by decide⟩

theorem isSome_ofText?_sevenTen : (Node.ofText? (numericCatalog sevenTen "4")).isSome = true := by
  decide +kernel

/-- **A numeral may be read as another version** than the one that it spells, and no update to the
version that it spells is answered then. -/
theorem not_update_numericDefault_sevenTen :
    ¬ ∀ (text : List Char) (doc : Node) (field : String) (versions : List String)
      (before : List (List Char)) (l : NumericLine) (after : List (List Char)),
      parse text = .ok doc.value → Node.ofText? text = some doc →
      HasNumericDefault field text doc before l after →
      (∃ token, extract text field = .ok (.single token) ∧
        Version.compareVersions token l.version = .eq) ∧
        ∃ above below, update text (.make field versions (some l.version)) =
          .ok (unlines (above ++ l.text :: below)) := by
  intro h
  have hdoc := (Option.some_get isSome_ofText?_sevenTen).symm
  generalize hget : (Node.ofText? (numericCatalog sevenTen "4")).get isSome_ofText?_sevenTen = doc
    at hdoc
  have honly : ((itemNodes doc).filter (isFor "redis_version" ·.value)).map
      (fun n => (hasOptions n.value, defaultText? n)) = [(false, some (2, sevenTen.spelled))] := by
    subst hget
    decide +kernel
  have hnumeric : HasNumericDefault "redis_version" (numericCatalog sevenTen "4") doc _ _ _ :=
    hasNumericDefault_numericCatalog (by decide +kernel) honly
  obtain ⟨⟨token, hread, hsame⟩, -⟩ := h _ doc "redis_version" ["7.10"] _ _ _
    (parse_of_isOk (by decide +kernel) hdoc) hdoc hnumeric
  have hextract : extract (numericCatalog sevenTen "4") "redis_version" = .ok (.single "7.1") := by
    decide +kernel
  rw [hextract] at hread
  cases hread
  exact absurd hsame (by decide +kernel)

end VersionAlignment.Artifact.Catalog

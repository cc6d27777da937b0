import VersionAlignment.Proofs.Terraform.RoundTrip

/-!
# Requests for the same versions

An update asks its request for the versions in ascending and in descending order, for the latest
version, and whether some tokens are the requested versions. All of that is fixed by the ascending
list and the latest version. Lists that name the same versions are sorted alike if no two of the
versions are tied; so the order in which versions are requested, and how often, makes no difference.
With ties it does: tied versions are written in the order of the request.

## Results

* `Request.alike_make`: requests for the same versions, none of them tied, are alike.
* `Format.update_congr`: alike requests are answered alike, in every format.
* `Format.update_congr_versions`: the order and the repetitions of a request do not matter.
-/

set_option autoImplicit false

namespace VersionAlignment

open Version

/-! ## Alike requests -/

namespace Request

/-- Two requests for the same field that give the same versions when they are sorted, and the same
latest version. -/
structure Alike (r r' : Request) : Prop where
  field : r.field = r'.field
  ascending : r.ascending = r'.ascending
  latest : r.latest = r'.latest

variable {r r' : Request}

theorem descending_eq (r : Request) : r.descending = sortDescending r.ascending :=
  (sortDescending_sortAscending r.versions).symm

theorem Alike.descending (h : r.Alike r') : r.descending = r'.descending := by
  rw [descending_eq, descending_eq, h.ascending]

theorem Alike.matchesVersions (h : r.Alike r') (current : List String) :
    r.matchesVersions current = r'.matchesVersions current := by
  rw [Request.matchesVersions, Request.matchesVersions, h.ascending]

theorem mem_versions_make {field v : String} {versions : List String} {latest? : Option String} :
    v ∈ (make field versions latest?).versions ↔ v ∈ versions := mem_distinct

/-- The latest version is taken from the versions in ascending order. -/
theorem latest_make_eq (field : String) (versions : List String) (latest? : Option String) :
    (make field versions latest?).latest =
      (latest?.filter (· ≠ "") <|> (make field versions latest?).ascending.getLast?).getD "" := by
  rw [ascending, ← latestOf?_eq_getLast?]
  rfl

/-- Requests for the same versions, none of them tied, are alike. -/
theorem alike_make {vs ws : List String} (hmem : ∀ v, v ∈ vs ↔ v ∈ ws)
    (huntied : ∀ a ∈ vs, ∀ b ∈ vs, compareVersions a b = .eq → a = b)
    (field : String) (latest? : Option String) :
    (make field vs latest?).Alike (make field ws latest?) := by
  have hascending : (make field vs latest?).ascending = (make field ws latest?).ascending := by
    refine sortAscending_congr (nodup_distinct vs) (nodup_distinct ws) (fun v => ?_) ?_
    · rw [mem_versions_make, mem_versions_make, hmem]
    · intro a ha b hb htied
      exact huntied a (mem_versions_make.1 ha) b (mem_versions_make.1 hb) (tied_iff.1 htied)
  refine ⟨rfl, hascending, ?_⟩
  rw [latest_make_eq, latest_make_eq, hascending]

end Request

namespace Artifact

variable {r r' : Request}

/-! ## Updates of alike requests -/

theorem Terraform.update_congr (h : r.Alike r') (text : List Char) :
    Terraform.update text r = Terraform.update text r' := by
  have hdeclares : Terraform.declares text r = Terraform.declares text r' := by
    rw [Terraform.declares, Terraform.declares, h.field]
    cases Terraform.extract text r'.field with
    | ok set => exact h.matchesVersions set.versions
    | error e => rfl
  rw [Terraform.update, Terraform.update, hdeclares, h.field, h.descending, h.ascending]

theorem GoTest.update_congr (h : r.Alike r') (constant : String) (text : List Char) :
    GoTest.update constant text r = GoTest.update constant text r' := by
  rw [GoTest.update, GoTest.update, h.field, h.latest]

namespace Catalog

theorem carries_congr (h : r.Alike r') (item : Json.Value) : carries r item = carries r' item := by
  simp only [carries, h.matchesVersions, h.latest]

/-- Arrays are rendered alike for alike requests. -/
theorem settle_congr (h : r.Alike r') (spans : List Span) (ending : List Char) (b : OptionsBlock) :
    Edit.settle ⟨r, spans, ending⟩ b = Edit.settle ⟨r', spans, ending⟩ b := by
  simp only [Edit.settle, h.matchesVersions, h.ascending]

/-- An edit depends on its request by the arrays that it renders and by the latest version. -/
theorem editLines_congr {e e' : Edit} (hcovers : ∀ n, e.covers n = e'.covers n)
    (hlatest : e.request.latest = e'.request.latest) (hsettle : ∀ b, e.settle b = e'.settle b)
    (g : Option Gathering) (n : Nat) (ls : List (List Char)) :
    editLines e g n ls = editLines e' g n ls := by
  induction ls generalizing g n with
  | nil => cases g <;> rfl
  | cons line more ih =>
    cases g with
    | some g => simp only [editLines, hsettle, ih]
    | none => simp only [editLines, hcovers, hlatest, hsettle, ih]

theorem editText_congr (h : r.Alike r') (text : List Char) :
    editText text r = editText text r' := by
  rw [editText, editText, h.field]
  refine congrArg Text.unlines (editLines_congr ?_ h.latest ?_ none 0 (Text.lines text))
  · exact fun _ => rfl
  · exact settle_congr h _ _

theorem update_congr (h : r.Alike r') (text : List Char) : update text r = update text r' := by
  have hcarries : carries r = carries r' := funext (carries_congr h)
  simp only [update, h.field, editText_congr h, hcarries]

end Catalog

namespace Format

/-- Alike requests are answered alike. -/
theorem update_congr (h : r.Alike r') (format : Format) (text : String) :
    format.update text r = format.update text r' := by
  cases format with
  | terraform => exact congrArg (Except.map String.ofList) (Terraform.update_congr h text.toList)
  | catalog => exact congrArg (Except.map String.ofList) (Catalog.update_congr h text.toList)
  | goTest constant =>
    exact congrArg (Except.map String.ofList) (GoTest.update_congr h constant text.toList)

/-- **The order and the repetitions of the requested versions do not matter**: lists that name the
same versions, no two of them tied, are answered with the same text or the same error, in every
format. -/
theorem update_congr_versions {vs ws : List String} (hmem : ∀ v, v ∈ vs ↔ v ∈ ws)
    (huntied : ∀ a ∈ vs, ∀ b ∈ vs, compareVersions a b = .eq → a = b)
    (format : Format) (text field : String) (latest? : Option String) :
    format.update text (.make field vs latest?) = format.update text (.make field ws latest?) :=
  update_congr (Request.alike_make hmem huntied field latest?) format text

theorem update_congr_versions_redisList :
    (∀ v, v ∈ ["7", "8.0", "7"] ↔ v ∈ ["8.0", "7"]) ∧
      (∀ a ∈ ["7", "8.0", "7"], ∀ b ∈ ["7", "8.0", "7"], compareVersions a b = .eq → a = b) ∧
      ∃ out, terraform.update redisList (.make "redis_version" ["7", "8.0", "7"] none) = .ok out ∧
        terraform.update redisList (.make "redis_version" ["8.0", "7"] none) = .ok out := by
  have hmem : ∀ v, v ∈ ["7", "8.0", "7"] ↔ v ∈ ["8.0", "7"] := by simp [or_comm]
  have huntied : ∀ a ∈ ["7", "8.0", "7"], ∀ b ∈ ["7", "8.0", "7"],
      compareVersions a b = .eq → a = b := by decide +kernel
  have hupdate : terraform.update redisList (.make "redis_version" ["7", "8.0", "7"] none) =
      .ok ("condition = anytrue([\n  var.redis_version == null,\n" ++
        "  var.redis_version == \"8.0\",\n  var.redis_version == \"7\"\n])\n") := by
    decide +kernel
  refine ⟨hmem, huntied, _, hupdate, ?_⟩
  rw [← update_congr_versions hmem huntied, hupdate]

/-- Tied versions keep the order in which they were requested. -/
example : terraform.update redisList (.make "redis_version" ["8", "8.0"] none) ≠
    terraform.update redisList (.make "redis_version" ["8.0", "8"] none) := by
  decide +kernel

end Format

end Artifact

end VersionAlignment

import VersionAlignment.Proofs.GoTest.Grammar

/-!
# Where the version of a Go test stands

An occurrence of a spelling is a lead and a version in quotes. Every lead ends with a sign and
blanks, and a field that stands in it is in quotes as well; so it matters which quote of an
occurrence opens its version. In a spelling that is read it is the one with a sign and blanks before
it. If the name of the field starts with no digit, it is in each of the three spellings the one with
a digit behind it.

## Results

* `opensBehind_of_isRead`, `Spelling.IsWorded.opensBehind`: the opening quote of a version.
* `eq_nil_of_append_mem_leads`: no lead ends with a shorter one of its spelling.
* `unlike_of_sign`, `unlike_mapEntry_structField`: no lead ends like one of another spelling.
-/

set_option autoImplicit false

open scoped Computability

namespace VersionAlignment.Artifact.GoTest

open Text

/-- The sign at the end of a lead. -/
def Spelling.sign : Spelling → Char
  | .constant _ => '='
  | .structField _ => ':'
  | .mapEntry _ => ':'

/-- Is the spelling read, and not only updated? -/
def Spelling.isRead : Spelling → Bool
  | .structField _ => false
  | _ => true

variable {sp sp₁ : Spelling} {o : Occurrence} {t v : List Char}

theorem sign_cases (sp : Spelling) : sp.sign = '=' ∨ sp.sign = ':' := by
  cases sp
  · exact .inl rfl
  · exact .inr rfl
  · exact .inr rfl

theorem isBlank_sign (sp : Spelling) : isBlank sp.sign = false := by
  rcases sign_cases sp with h | h <;> rw [h] <;> decide

theorem isNameChar_sign (sp : Spelling) : isNameChar sp.sign = false := by
  rcases sign_cases sp with h | h <;> rw [h] <;> decide

/-- A lead ends with the sign of its spelling and blanks. -/
theorem exists_lead_eq {t : List Char} (ht : t ∈ sp.leads) :
    ∃ a ws, t = a ++ sp.sign :: ws ∧ ws ∈ runsOf isBlank := by
  cases sp with
  | constant name =>
    obtain ⟨_, rfl, _, ⟨ws, -, _, ⟨_, rfl, _, ⟨ws', -, _, ⟨_, rfl, u, hu, rfl⟩, rfl⟩, rfl⟩, rfl⟩,
      rfl⟩ := Language.mem_mul.1 ht
    exact ⟨"const".toList ++ (ws ++ (name.toList ++ ws')), u, by simp [Spelling.sign], hu⟩
  | structField field =>
    obtain ⟨_, rfl, _, ⟨ws, -, _, ⟨_, rfl, _, ⟨ws', -, _, ⟨_, rfl, _, ⟨ws'', -, _, ⟨_, rfl, u, hu,
      rfl⟩, rfl⟩, rfl⟩, rfl⟩, rfl⟩, rfl⟩, rfl⟩ := Language.mem_mul.1 ht
    exact ⟨"\x7b".toList ++ (ws ++ ("Name:".toList ++ (ws' ++ (("\"" ++ field ++ "\",").toList ++
      (ws'' ++ "Value".toList))))), u, by simp [Spelling.sign], hu⟩
  | mapEntry field =>
    obtain ⟨_, rfl, _, ⟨ws, -, _, ⟨_, rfl, u, hu, rfl⟩, rfl⟩, rfl⟩ := Language.mem_mul.1 ht
    exact ⟨("\"" ++ field ++ "\"").toList ++ ws, u, by simp [Spelling.sign], hu⟩

/-- The last character of a name. -/
theorem exists_concat_of_isNamed (h : sp.IsNamed) :
    ∃ u c, sp.name.toList = u ++ [c] ∧ isNameChar c = true := by
  have hne : sp.name.toList ≠ [] := fun hnil => h.2 (String.toList_eq_nil_iff.1 hnil)
  have hlast := List.dropLast_concat_getLast hne
  exact ⟨_, _, hlast.symm, h.1 _ (List.getLast_mem hne)⟩

/-- The parts of the lead of a map entry. -/
theorem exists_mapEntry_lead_eq {field : String} {t : List Char}
    (ht : t ∈ (Spelling.mapEntry field).leads) :
    ∃ m, t = '"' :: (field.toList ++ '"' :: m) ∧ '"' ∉ m := by
  obtain ⟨_, rfl, _, ⟨ws, hws, _, ⟨_, rfl, u, hu, rfl⟩, rfl⟩, rfl⟩ := Language.mem_mul.1 ht
  have hq : '"' ∉ ws := Avoids.runsOf (by decide) _ hws
  have hq' : '"' ∉ u := Avoids.runsOf (by decide) _ hu
  exact ⟨ws ++ ':' :: u, by simp, by simp [hq, hq']⟩

theorem avoids_constant_leads {name : String} (hname : IsName name) :
    Avoids '"' (Spelling.constant name).leads := by
  refine (Avoids.word (by decide)).mul (.mul ?_ ((Avoids.word (hname.notMem (by decide))).mul
    ((Avoids.runsOf (by decide)).mul ((Avoids.word (by decide)).mul (.runsOf (by decide))))))
  exact fun t ht hc => absurd (ht.2 _ hc) (by decide)

/-- The text does not start with a digit. -/
def NoDigitHead (s : List Char) : Prop := ∀ c cs, s = c :: cs → c.isDigit = false

/-- The field in the spelling, if there is one, does not start with a digit. -/
def Spelling.IsWorded : Spelling → Prop
  | .constant _ => True
  | .structField field => NoDigitHead field.toList
  | .mapEntry field => NoDigitHead field.toList

theorem noDigitHead_of_blanks {ws w : List Char} {d : Char} (hws : ws ∈ runsOf isBlank)
    (hd : d.isDigit = false) : NoDigitHead (ws ++ d :: w) := by
  intro c cs h
  cases ws with
  | nil =>
    obtain ⟨rfl, -⟩ := List.cons.inj h
    exact hd
  | cons e ws =>
    obtain ⟨rfl, -⟩ := List.cons.inj h
    by_contra hdigit
    have halnum : e.isAlphanum = true := by
      simp [Char.isAlphanum, Bool.eq_true_of_not_eq_false hdigit]
    have hblank := hws e List.mem_cons_self
    rw [isBlank_of_isAlphanum halnum] at hblank
    cases hblank

/-- A lead with a field in quotes. Behind neither quote a digit is next, and the texts around the
field are no numbers. -/
structure FieldLead (t front name behind : List Char) : Prop where
  eq : t = front ++ '"' :: (name ++ '"' :: behind)
  quote_front : '"' ∉ front
  quote_name : '"' ∉ name
  quote_behind : '"' ∉ behind
  front : front = [] ∨ ':' ∈ front
  name : name ≠ [] ∧ NoDigitHead name
  behind : ':' ∈ behind ∧ NoDigitHead behind

/-- A lead has no quote, or a field in quotes. -/
theorem lead_cases (hsp : sp.IsNamed) (hword : sp.IsWorded) (ht : t ∈ sp.leads) :
    ('"' ∉ t ∧ '=' ∈ t) ∨ ∃ front name behind, FieldLead t front name behind := by
  have hquote : ∀ {u : List Char}, u ∈ runsOf isBlank → '"' ∉ u :=
    fun hu => Avoids.runsOf (by decide) _ hu
  have hname : sp.name.toList ≠ [] := fun hnil => hsp.2 (String.toList_eq_nil_iff.1 hnil)
  have hplain : '"' ∉ sp.name.toList := hsp.1.notMem (by decide)
  cases sp with
  | constant name =>
    refine .inl ⟨avoids_constant_leads hsp.1 _ ht, ?_⟩
    obtain ⟨a, ws, rfl, -⟩ := exists_lead_eq ht
    simp [Spelling.sign]
  | structField field =>
    obtain ⟨_, rfl, _, ⟨w₁, hw₁, _, ⟨_, rfl, _, ⟨w₂, hw₂, _, ⟨_, rfl, _, ⟨w₃, hw₃, _, ⟨_, rfl, w₄,
      hw₄, rfl⟩, rfl⟩, rfl⟩, rfl⟩, rfl⟩, rfl⟩, rfl⟩ := Language.mem_mul.1 ht
    refine .inr ⟨"\x7b".toList ++ (w₁ ++ ("Name:".toList ++ w₂)), field.toList,
      ',' :: (w₃ ++ ("Value:".toList ++ w₄)), ?_⟩
    constructor
    · simp
    · simp [hquote hw₁, hquote hw₂]
    · exact hplain
    · simp [hquote hw₃, hquote hw₄]
    · exact .inr (by simp)
    · exact ⟨hname, hword⟩
    · refine ⟨by simp, ?_⟩
      rintro _ _ ⟨⟩
      decide
  | mapEntry field =>
    obtain ⟨_, rfl, _, ⟨w₁, hw₁, _, ⟨_, rfl, w₂, hw₂, rfl⟩, rfl⟩, rfl⟩ := Language.mem_mul.1 ht
    refine .inr ⟨[], field.toList, w₁ ++ ':' :: w₂, ?_⟩
    constructor
    · simp
    · exact List.not_mem_nil
    · exact hplain
    · simp [hquote hw₁, hquote hw₂]
    · exact .inl rfl
    · exact ⟨hname, hword⟩
    · exact ⟨by simp, noDigitHead_of_blanks hw₁ (by decide)⟩

/-! ## Quotes of an occurrence -/

theorem text_eq (o : Occurrence) : o.text = o.lead ++ '"' :: (o.version ++ ['"']) := rfl

theorem quote_notMem_version (ho : o.IsOf sp) : '"' ∉ o.version :=
  fun h => absurd (isNumberChar_of_mem ho.version h) (by decide)

/-- Behind the opening quote of an occurrence the next quote is the last character. -/
theorem eq_nil_of_version_eq (ho : o.IsOf sp) {u w : List Char}
    (h : u ++ '"' :: w = o.version ++ ['"']) : w = [] := by
  rcases split_at_char (quote_notMem_version ho) h with ⟨-, hw⟩ | ⟨v, -, hv⟩
  · exact hw
  · simp at hv

/-- A quote behind a sign and blanks is the opening quote of the occurrence in which it stands,
unless the occurrence ends with it. -/
theorem lead_eq_of_text_eq (hsp : sp.IsNamed) (hread : sp.isRead = true) (ho : o.IsOf sp)
    {a ws w : List Char} {c : Char} (hc : isNameChar c = false) (hblank : isBlank c = false)
    (hws : ws ∈ runsOf isBlank) (hw : w ≠ [])
    (h : a ++ c :: ws ++ '"' :: w = o.text) : a ++ c :: ws = o.lead := by
  rw [text_eq] at h
  cases sp with
  | constant name =>
    rcases split_at_char (avoids_constant_leads hsp.1 _ ho.lead) h with ⟨hlead, -⟩ | ⟨v, -, hv⟩
    · exact hlead
    · exact absurd (eq_nil_of_version_eq ho hv) hw
  | structField field => cases hread
  | mapEntry field =>
    obtain ⟨m, hlead, hm⟩ := exists_mapEntry_lead_eq ho.lead
    have hfield : '"' ∉ field.toList := hsp.1.notMem (by decide)
    have htext : o.lead ++ '"' :: (o.version ++ ['"']) =
        [] ++ '"' :: (field.toList ++ '"' :: (m ++ '"' :: (o.version ++ ['"']))) := by
      rw [hlead]
      simp
    rw [htext] at h
    -- the quote is not the first of the occurrence, nor the one behind the name
    rcases split_at_char List.not_mem_nil h with ⟨hnil, -⟩ | ⟨u, hu, h⟩
    · simp at hnil
    rcases split_at_char hfield h with ⟨hname, -⟩ | ⟨u', hu', h⟩
    · obtain ⟨v, d, hv, hd⟩ := exists_concat_of_isNamed hsp
      have hlast : a ++ c :: ws = ('"' :: v) ++ d :: [] := by
        rw [hu, hname, show field.toList = v ++ [d] from hv]
        simp
      obtain ⟨-, rfl, -⟩ := append_run_unique hws (by simp) hblank (isBlank_of_isNameChar hd) hlast
      rw [hc] at hd
      cases hd
    rcases split_at_char hm h with ⟨rfl, -⟩ | ⟨v, -, hv⟩
    · rw [hu, hu', hlead]
      simp
    · exact absurd (eq_nil_of_version_eq ho hv) hw

/-- **A quote with a digit behind it** is the opening quote of the version. -/
theorem lead_eq_of_digit (hsp : sp.IsNamed) (hword : sp.IsWorded) (ho : o.IsOf sp)
    {a w : List Char} {c : Char} (hc : c.isDigit = true) (h : a ++ '"' :: c :: w = o.text) :
    a = o.lead := by
  have hversion : ∀ u, u ++ '"' :: c :: w ≠ o.version ++ ['"'] :=
    fun u hu => List.cons_ne_nil _ _ (eq_nil_of_version_eq ho hu)
  have hhead : ∀ {s x : List Char}, s ≠ [] → NoDigitHead s → c :: w ≠ s ++ x := by
    intro s x hne hs he
    obtain ⟨d, ds, rfl⟩ := List.exists_cons_of_ne_nil hne
    obtain ⟨rfl, -⟩ := List.cons.inj he
    rw [hs _ _ rfl] at hc
    cases hc
  rw [text_eq] at h
  rcases lead_cases hsp hword ho.lead with ⟨hquote, -⟩ | ⟨front, name, behind, hfield⟩
  · rcases split_at_char hquote h with ⟨ha, -⟩ | ⟨u, -, hu⟩
    · exact ha
    · exact absurd hu (hversion u)
  · have hsplit : a ++ '"' :: c :: w =
        front ++ '"' :: (name ++ '"' :: (behind ++ '"' :: (o.version ++ ['"']))) := by
      rw [h, hfield.eq]
      simp
    rcases split_at_char hfield.quote_front hsplit with ⟨-, he⟩ | ⟨a₁, rfl, h₁⟩
    · exact absurd he (hhead hfield.name.1 hfield.name.2)
    rcases split_at_char hfield.quote_name h₁ with ⟨-, he⟩ | ⟨a₂, rfl, h₂⟩
    · exact absurd he (hhead (List.ne_nil_of_mem hfield.behind.1) hfield.behind.2)
    rcases split_at_char hfield.quote_behind h₂ with ⟨rfl, -⟩ | ⟨u, -, hu⟩
    · rw [hfield.eq]
    · exact absurd hu (hversion u)

/-! ## Quotes with a number behind them -/

/-- A quote behind `front` is the opening quote of each occurrence that reaches over it into a
number. -/
def Spelling.OpensBehind (sp : Spelling) (front : List Char) : Prop :=
  ∀ ⦃o : Occurrence⦄ ⦃v w x y : List Char⦄, o.IsOf sp → v ∈ dottedNumbers → w ≠ [] →
    o.text = front ++ '"' :: w → w ++ x = v ++ y → front = o.lead

/-- In a spelling that is read, a quote behind a lead is the opening quote. -/
theorem opensBehind_of_isRead (hsp : sp.IsNamed) (hread : sp.isRead = true) (ht : t ∈ sp.leads)
    (b : List Char) : sp.OpensBehind (b ++ t) := by
  intro o v w x y ho _ hw htext _
  obtain ⟨a, ws, rfl, hws⟩ := exists_lead_eq ht
  have hquote : (b ++ a) ++ sp.sign :: ws ++ '"' :: w = o.text := by
    rw [htext]
    simp
  simpa using lead_eq_of_text_eq hsp hread ho (isNameChar_sign sp) (isBlank_sign sp) hws hw hquote

/-- If the field starts with no digit, a quote with a number behind it is the opening quote. -/
theorem Spelling.IsWorded.opensBehind (hword : sp.IsWorded) (hsp : sp.IsNamed)
    (front : List Char) : sp.OpensBehind front := by
  intro o v w x y ho hv hw htext hnumber
  obtain ⟨c, cs, rfl, hc⟩ := exists_digit_of_mem hv
  obtain ⟨d, w, rfl⟩ := List.exists_cons_of_ne_nil hw
  obtain ⟨rfl, -⟩ := List.cons.inj hnumber
  exact lead_eq_of_digit hsp hword ho hc htext.symm

/-! ## The ends of leads -/

/-- No lead of a spelling that is read ends with a shorter one. -/
theorem eq_nil_of_append_mem_of_isRead (hsp : sp.IsNamed) (hread : sp.isRead = true)
    {b t : List Char} (ht : t ∈ sp.leads) (hbt : b ++ t ∈ sp.leads) : b = [] := by
  cases sp with
  | constant name =>
    obtain ⟨u, d, hu, hd⟩ := exists_concat_of_isNamed hsp
    have hname : name.toList = u ++ [d] := hu
    obtain ⟨_, rfl, _, ⟨ws, hws, _, ⟨_, rfl, _, ⟨ws', hws', _, ⟨_, rfl, v, hv, rfl⟩, rfl⟩, rfl⟩,
      rfl⟩, rfl⟩ := Language.mem_mul.1 ht
    obtain ⟨_, rfl, _, ⟨zs, hzs, _, ⟨_, rfl, _, ⟨zs', hzs', _, ⟨_, rfl, v', hv', rfl⟩, rfl⟩, rfl⟩,
      rfl⟩, he⟩ := Language.mem_mul.1 hbt
    -- from behind: the sign, the last character of the name, the last one of the word
    have hsign : "const".toList ++ zs ++ name.toList ++ zs' ++ '=' :: v' =
        b ++ "const".toList ++ ws ++ name.toList ++ ws' ++ '=' :: v := by simpa using he
    obtain ⟨hsign, -, -⟩ := append_run_unique hv' hv (by decide) (by decide) hsign
    have hlast : "const".toList ++ zs ++ u ++ d :: zs' =
        b ++ "const".toList ++ ws ++ u ++ d :: ws' := by simpa [hname] using hsign
    have hd' := isBlank_of_isNameChar hd
    obtain ⟨hlast, -, -⟩ := append_run_unique hzs' hws' hd' hd' hlast
    have hword : "cons".toList ++ 't' :: zs = b ++ "cons".toList ++ 't' :: ws := by
      simpa using List.append_cancel_right hlast
    obtain ⟨hword, -, -⟩ := append_run_unique hzs.2 hws.2 (by decide) (by decide) hword
    simpa using hword
  | structField field => cases hread
  | mapEntry field =>
    obtain ⟨m, rfl, hm⟩ := exists_mapEntry_lead_eq ht
    obtain ⟨m', he, hm'⟩ := exists_mapEntry_lead_eq hbt
    have hfield : '"' ∉ field.toList := hsp.1.notMem (by decide)
    have hb : b ++ '"' :: (field.toList ++ '"' :: m) =
        [] ++ '"' :: (field.toList ++ '"' :: m') := he
    rcases split_at_char List.not_mem_nil hb with ⟨rfl, -⟩ | ⟨u, -, hu⟩
    · rfl
    rcases split_at_char hfield hu with ⟨-, he⟩ | ⟨v, -, he⟩
    · exact absurd (he ▸ by simp) hm'
    · exact absurd (he ▸ by simp) hm'

/-- The brace at the front of a field of a structure is the only one. -/
theorem exists_structField_lead_eq {field : String} (hfield : IsName field)
    (ht : t ∈ (Spelling.structField field).leads) : ∃ m, t = '\x7b' :: m ∧ '\x7b' ∉ m := by
  have havoids : Avoids '\x7b' (runsOf isBlank * ({"Name:".toList} * (runsOf isBlank *
      ({("\"" ++ field ++ "\",").toList} * (runsOf isBlank * ({"Value:".toList} *
      runsOf isBlank)))))) := by
    have hblanks : Avoids '\x7b' (runsOf isBlank) := .runsOf (by decide)
    refine hblanks.mul ((Avoids.word (by decide)).mul (hblanks.mul ((Avoids.word ?_).mul
      (hblanks.mul ((Avoids.word (by decide)).mul hblanks)))))
    have hname : '\x7b' ∉ field.toList := hfield.notMem (by decide)
    simp [hname]
  obtain ⟨_, rfl, m, hm, rfl⟩ := Language.mem_mul.1 ht
  exact ⟨m, rfl, havoids m hm⟩

/-- No lead ends with a shorter one of its spelling. -/
theorem eq_nil_of_append_mem_leads (hsp : sp.IsNamed) {b : List Char} (ht : t ∈ sp.leads)
    (hbt : b ++ t ∈ sp.leads) : b = [] := by
  cases sp with
  | constant name => exact eq_nil_of_append_mem_of_isRead hsp rfl ht hbt
  | mapEntry field => exact eq_nil_of_append_mem_of_isRead hsp rfl ht hbt
  | structField field =>
    obtain ⟨m, rfl, -⟩ := exists_structField_lead_eq hsp.1 ht
    obtain ⟨m', he, hm'⟩ := exists_structField_lead_eq hsp.1 hbt
    cases b with
    | nil => rfl
    | cons d b =>
      obtain ⟨-, rfl⟩ := List.cons.inj he
      exact absurd (by simp) hm'

/-- No leads of the two spellings end at the same place. -/
def Unlike (sp₁ sp : Spelling) : Prop := ∀ t ∈ sp₁.leads, ∀ t' ∈ sp.leads, ∀ y b, y ++ t ≠ b ++ t'

theorem unlike_of_sign {sp₁ : Spelling} (h : sp₁.sign ≠ sp.sign) : Unlike sp₁ sp := by
  intro t ht t' ht' y b he
  obtain ⟨a, ws, rfl, hws⟩ := exists_lead_eq ht
  obtain ⟨a', ws', rfl, hws'⟩ := exists_lead_eq ht'
  have hsigns : (y ++ a) ++ sp₁.sign :: ws = (b ++ a') ++ sp.sign :: ws' := by simpa using he
  obtain ⟨-, hsame, -⟩ := append_run_unique hws hws' (isBlank_sign _) (isBlank_sign _) hsigns
  exact h hsame

theorem Unlike.symm (h : Unlike sp₁ sp) : Unlike sp sp₁ :=
  fun t ht t' ht' y b he => h t' ht' t ht b y he.symm

/-- Before its sign a map entry has a quote, and a field of a structure has a letter. -/
theorem unlike_mapEntry_structField (field name : String) :
    Unlike (.mapEntry field) (.structField name) := by
  rintro t ⟨_, rfl, _, ⟨ws, hws, _, ⟨_, rfl, u, hu, rfl⟩, rfl⟩, rfl⟩
    t' ⟨_, rfl, _, ⟨w₁, -, _, ⟨_, rfl, _, ⟨w₂, -, _, ⟨_, rfl, _, ⟨w₃, -, _, ⟨_, rfl, u', hu', rfl⟩,
      rfl⟩, rfl⟩, rfl⟩, rfl⟩, rfl⟩, rfl⟩ y b he
  have hsigns : (y ++ '"' :: field.toList ++ '"' :: ws) ++ ':' :: u =
      (b ++ '\x7b' :: w₁ ++ "Name:".toList ++ w₂ ++ ("\"" ++ name ++ "\",").toList ++ w₃ ++
        "Valu".toList ++ 'e' :: []) ++ ':' :: u' := by
    simpa using he
  obtain ⟨hsigns, -, -⟩ := append_run_unique hu hu' (by decide) (by decide) hsigns
  obtain ⟨-, hlast, -⟩ := append_run_unique hws (by simp) (by decide) (by decide) hsigns
  exact absurd hlast (by decide)

/-! ## Numbers -/

/-- No occurrence starts with a character of a number. -/
theorem exists_text_eq (hsp : sp.IsNamed) (ho : o.IsOf sp) :
    ∃ c cs, o.text = c :: cs ∧ isNumberChar c = false := by
  cases sp with
  | constant name =>
    obtain ⟨_, rfl, u, -, hu⟩ := Language.mem_mul.1 ho.lead
    exact ⟨'c', _, by rw [text_eq, ← hu]; rfl, by decide⟩
  | mapEntry field =>
    obtain ⟨m, hlead, -⟩ := exists_mapEntry_lead_eq ho.lead
    exact ⟨'"', _, by rw [text_eq, hlead]; rfl, by decide⟩
  | structField field =>
    obtain ⟨m, hlead, -⟩ := exists_structField_lead_eq hsp.1 ho.lead
    exact ⟨'\x7b', _, by rw [text_eq, hlead]; rfl, by decide⟩

/-- No occurrence starts in a number. -/
theorem silent_number (hsp : sp.IsNamed) (hv : v ∈ dottedNumbers) :
    Silent (Occurrence.read? sp.lead) v := by
  refine silent_of_heads (p := isNumberChar) (fun c cs hc => ?_)
    fun c hc => isNumberChar_of_mem hv hc
  cases hfound : Occurrence.read? sp.lead (c :: cs) with
  | none => rfl
  | some found =>
    obtain ⟨ho, happ⟩ := (Occurrence.read?_eq_some_iff hsp).1 hfound
    obtain ⟨d, ds, htext, hd⟩ := exists_text_eq hsp ho
    rw [htext] at happ
    obtain ⟨rfl, -⟩ := List.cons.inj happ
    rw [hc] at hd
    cases hd

end VersionAlignment.Artifact.GoTest

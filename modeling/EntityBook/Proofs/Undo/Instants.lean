import EntityBook.Proofs.Calendar.Rfc3339
import EntityBook.Proofs.Run.WriteResult
import EntityBook.Proofs.Undo.Captures
import EntityBook.Proofs.Undo.Recording

/-! # Instants set from texts

  A text of an instant is read with its own zone, and the instant is shown in UTC. What
  is shown reads back as the same instant as long as its year in UTC has four digits:
  leap seconds and fractions are no trouble. The instants of the first and the last day
  whose zones take them into another year are shown with a sign, which no text may have,
  so undo cannot restore them.
-/

namespace EntityBook

variable {P : PayloadFamily}

instance (t : Timestamp) : Decidable t.InFourDigitYears :=
  inferInstanceAs (Decidable (_ ∧ _))

namespace ParamValue

theorem parse_time (s : String) : parse (.scalar .time) s =
    match Timestamp.read s.toList with
    | some t => .ok (.scalar .time t)
    | none => .error (.unreadable "time" s) := by
  have hread : parse (.scalar .time) s =
      (ScalarKind.orUnreadable "time" s.toList (Timestamp.read s.toList)).map (scalar .time) := rfl
  rw [hread]
  cases Timestamp.read s.toList with
  | some t => rfl
  | none =>
    show Except.error (ValueError.unreadable "time" (String.ofList s.toList)) = _
    rw [String.ofList_toList]

/-- A text that reads as an instant spells its fields. -/
theorem fields_of_parse_time {s : String} {v : ParamValue}
    (h : parse (.scalar .time) s = .ok v) :
    ∃ t f, v = .scalar .time t ∧ Timestamp.readFields (Text.trimChars s.toList) = some f ∧
      Timestamp.ofFields? f = some t := by
  rw [parse_time] at h
  cases hread : Timestamp.read s.toList with
  | none =>
    rw [hread] at h
    cases h
  | some t =>
    rw [hread] at h
    obtain ⟨f, hf, ht⟩ := Option.bind_eq_some_iff.mp hread
    exact ⟨t, f, (Except.ok.inj h).symm, hf, ht⟩

/-- What an instant shows reads back as the instant, or it is no text of an instant. -/
theorem parse_text_time (t : Timestamp) :
    parse (.scalar .time) (scalar .time t).text =
      if t.InFourDigitYears then .ok (scalar .time t)
      else .error (.unreadable "time" (scalar .time t).text) := by
  have hchars : (scalar .time t).text.toList = t.chars := String.toList_ofList
  rw [parse_time, hchars]
  rcases Timestamp.read_chars_cases t with ⟨hyears, hread⟩ | ⟨hyears, hread⟩
  · rw [hread, if_pos hyears]
  · rw [hread, if_neg hyears]

end ParamValue

namespace Book

variable {b : Book P} {e : Entity} {name : String} {p : Param P} {i : Instance P}
  {cl : ObjectClass P}

/-- What an entity is read to hold is what its instance holds. -/
theorem value?_of_read (hb : b.WellFormed) (hp : b.undoableParam e name = .ok p)
    (live : b.get? e = some i) {w : ParamValue} (hw : b.read e name = .ok w) :
    i.value? p.accessor = some w := by
  obtain ⟨cl, hcl, hmem, _⟩ := undoableParam_eq_ok.mp hp
  obtain ⟨v, hv⟩ := (hb.fits e i live).exists_value hcl
    (ObjectClass.mem_params_of_mem_copyable hmem)
  cases (read_eq hp live hv).symm.trans hw
  exact hv

/-- Restoring a whole parameter gives it the value of the captured text, if that is the
    text of a value. -/
theorem read_restore_value (hb : b.WellFormed) (hp : b.undoableParam e name = .ok p)
    (live : b.get? e = some i) (hcl : b.registry.find? e.typeTag = some cl) (lawful : cl.IsLawful)
    (hslots : p.isSlots = false) {c : Change P} (hentity : c.entity = e) (hparam : c.param = p)
    (hpath : c.path = none) {w : ParamValue} (hw : b.read e name = .ok w) (s : String) :
    (b.restore c (.value s)).read e name = .ok
      (match ParamValue.parse p.kind s with
      | .ok v => v
      | .error _ => w) := by
  subst hentity hparam
  obtain ⟨cl', hcl', hmem, _⟩ := undoableParam_eq_ok.mp hp
  cases hcl.symm.trans hcl'
  have hfit := hb.fits _ i live
  obtain ⟨_, hknown, _, htype⟩ := hfit.known
  cases hcl.symm.trans hknown
  have hc : c.Fits cl := ⟨hmem, by rw [hpath, hslots]; rfl⟩
  obtain ⟨k, hk, hsame⟩ := get?_restore_self (.value s) live hfit.deleting
  have hagain : (b.restore c (.value s)).undoableParam c.entity name = .ok c.param := by
    rw [undoableParam_congr (Revises.restore hb c _).registry]
    exact hp
  have hvalue : (i.restored c (.value s)).value? c.param.accessor =
      some (w.restored c (.value s)) :=
    Instance.value?_restored_self lawful htype hc (value?_of_read hb hp live hw)
  have hrestored : w.restored c (.value s) =
      match ParamValue.parse c.param.kind s with
      | .ok v => v
      | .error _ => w := by
    cases hs : ParamValue.parse c.param.kind s <;> simp only [ParamValue.restored, hpath, hs]
  rw [← hsame.value?, hrestored] at hvalue
  exact read_eq hagain hk hvalue

/-- A text that reads as a value of a parameter gives it the value, whatever the backend
    answers, and the text of the value is captured then. -/
theorem writeText_value (hb : b.WellFormed) (hp : b.undoableParam e name = .ok p)
    (live : b.get? e = some i) (hcl : b.registry.find? e.typeTag = some cl) (lawful : cl.IsLawful)
    {s : String} {v : ParamValue} (hv : ParamValue.parse p.kind s = .ok v) :
    (b.writeText e name s).2.read e name = .ok v ∧
      (b.writeText e name s).2.capture e p none = .value v.text := by
  obtain ⟨cl', hcl', hmem, hname⟩ := undoableParam_eq_ok.mp hp
  cases hcl.symm.trans hcl'
  obtain ⟨_, hknown, _, htype⟩ := (hb.fits e i live).known
  cases hcl.symm.trans hknown
  have hro := ObjectClass.isReadOnly_of_mem_copyable hmem
  have hfor := ObjectClass.isFor_of_mem_params (ObjectClass.mem_params_of_mem_copyable hmem)
  obtain ⟨j, hj⟩ := Instance.exists_write hro (htype ▸ hfor) (ParamValue.hasKind_of_parse hv)
  have hwrite : i.assign p (.text s) = .ok j := by
    show i.writeText p s = .ok j
    unfold Instance.writeText
    rw [if_neg (by simp [hro]), hv]
    exact hj
  have hparam : b.param? e name = .ok p := Registry.param?_eq_ok.mpr ⟨cl, hcl, hname⟩
  obtain ⟨_, k, hk, hsame⟩ := assign_of_ok hb live hparam hwrite
  have hvalue : k.value? p.accessor = some v :=
    (hsame.value? _).trans (Instance.value?_write_self (lawful.accessor p hmem) hj)
  have hagain : (b.writeText e name s).2.undoableParam e name = .ok p := by
    rw [undoableParam_congr (Revises.writeText hb e name s).registry]
    exact hp
  exact ⟨read_eq hagain hk hvalue, capture_eq hk hvalue⟩

theorem isSlots_of_kind {k : ScalarKind} (h : p.kind = .scalar k) : p.isSlots = false := by
  cases hs : p.isSlots with
  | false => rfl
  | true =>
    unfold Param.kind at h
    rw [Instance.accessor_of_isSlots hs] at h
    cases h

/-- An instant that was read from a text reads back from what it shows just if its year in
    UTC has four digits, which fails only for a text of the first or the last day whose zone
    takes it over midnight. A parameter that was set from the text shows the instant, and undo
    captures what it shows; restoring the capture gives the instant if its text reads back,
    and otherwise leaves the parameter as it is. -/
theorem instants_restored_iff {s : String} {v : ParamValue}
    (h : ParamValue.parse (.scalar .time) s = .ok v) :
    ∃ t f, v = .scalar .time t ∧ Timestamp.readFields (Text.trimChars s.toList) = some f ∧
      Timestamp.ofFields? f = some t ∧
      (ParamValue.parse (.scalar .time) v.text = .ok v ↔ t.InFourDigitYears) ∧
      (¬ t.InFourDigitYears →
        ParamValue.parse (.scalar .time) v.text = .error (.unreadable "time" v.text)) ∧
      (t.InFourDigitYears ↔ (f.date = ⟨0, 1, 1⟩ → f.offset ≤ f.clock) ∧
        (f.date = ⟨9999, 12, 31⟩ → f.clock < 86400 + f.offset)) ∧
      ∀ {P : PayloadFamily} {b : Book P} {e : Entity} {name : String} {p : Param P}
        {i : Instance P} {cl : ObjectClass P}, b.WellFormed → b.undoableParam e name = .ok p →
        p.kind = .scalar .time → b.get? e = some i → b.registry.find? e.typeTag = some cl →
        cl.IsLawful →
        (b.writeText e name s).2.read e name = .ok v ∧
        (b.writeText e name s).2.capture e p none = .value v.text ∧
        ∀ c : Change P, c.entity = e → c.param = p → c.path = none →
          ∀ w, b.read e name = .ok w → (b.restore c (.value v.text)).read e name =
            .ok (if t.InFourDigitYears then v else w) := by
  obtain ⟨t, f, rfl, hf, ht⟩ := ParamValue.fields_of_parse_time h
  have hback := ParamValue.parse_text_time t
  refine ⟨t, f, rfl, hf, ht, ?_, ?_, ?_, ?_⟩
  · rw [hback]
    by_cases hyears : t.InFourDigitYears
    · simp [hyears]
    · simp [hyears]
  · intro hyears
    rw [hback, if_neg hyears]
  · exact Timestamp.inFourDigitYears_iff_zone (Timestamp.year_of_readFields hf) ht
  · intro P b e name p i cl hb hp hkind live hcl lawful
    have hparse : ParamValue.parse p.kind s = .ok (.scalar .time t) := by
      rw [hkind]
      exact h
    obtain ⟨hread, hcapture⟩ := writeText_value hb hp live hcl lawful hparse
    refine ⟨hread, hcapture, ?_⟩
    intro c hentity hparam hpath w hw
    rw [read_restore_value hb hp live hcl lawful (isSlots_of_kind hkind) hentity hparam hpath
      hw, hkind, hback]
    by_cases hyears : t.InFourDigitYears
    · rw [if_pos hyears, if_pos hyears]
    · rw [if_neg hyears, if_neg hyears]

/-! ### Two ends of years -/

/-- Half a second into a leap second, five hours to the west of the meridian. -/
def leapText : String := "2016-12-31T18:59:60.5-05:00"

/-- The last second of the year 9999, an hour to the west of the meridian. -/
def farText : String := "9999-12-31T23:59:59-01:00"

/-- A leap second is kept with its fraction. -/
theorem leap_second_reads_back :
    ∃ v, ParamValue.parse (.scalar .time) leapText = .ok v ∧
      v.text = "2016-12-31T23:59:60.500000000Z" ∧
      ParamValue.parse (.scalar .time) v.text = .ok v := by
  obtain ⟨v, hv, htext⟩ : ∃ v, ParamValue.parse (.scalar .time) leapText = .ok v ∧
      v.text = "2016-12-31T23:59:60.500000000Z" := ⟨_, rfl, by decide +kernel⟩
  obtain ⟨t, f, rfl, hf, ht, hback, _, hyears, _⟩ := instants_restored_iff hv
  have hdate : f.date = ⟨2016, 12, 31⟩ := by
    have h : (Timestamp.readFields (Text.trimChars leapText.toList)).map (·.date) =
        some ⟨2016, 12, 31⟩ := by decide +kernel
    rw [hf] at h
    exact Option.some.inj h
  refine ⟨_, hv, htext, hback.mpr (hyears.mpr ?_)⟩
  rw [hdate]
  simp

/-- In UTC the last second of the year 9999 to the west of the meridian is one of the year
    10000, and its text does not read back. -/
theorem far_instant_does_not_read_back :
    ∃ v, ParamValue.parse (.scalar .time) farText = .ok v ∧
      v.text = "+10000-01-01T00:59:59.000000000Z" ∧
      ParamValue.parse (.scalar .time) v.text ≠ .ok v := by
  exact ⟨_, rfl, by decide +kernel, by decide +kernel⟩

end Book

end EntityBook

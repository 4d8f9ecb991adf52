import Chaining.Proofs.Ini.Reading

/-!
# Which INI texts are refused, and with which error

A text is read if no line breaks a rule, and otherwise refused with the error of the
first line that does (`parse_exact`). No map refuses a pair on the way: that would take
more lines than 2^60 bytes can hold.
-/

namespace Chaining.Ini

/-- No line breaks a rule. -/
def Faultless (ls : List (List Char)) : Prop :=
  ∀ before line after, ls = before ++ line :: after → ∀ e, ¬ Breaks before line e

/-- The first line that breaks a rule gives that error. -/
def FirstFault (ls : List (List Char)) (e : Error) : Prop :=
  ∃ before line after, ls = before ++ line :: after ∧ Faultless before ∧ Breaks before line e

theorem faultless_nil : Faultless [] := by
  intro before line after h
  simp at h

theorem Faultless.concat {ls : List (List Char)} {line : List Char} (h : Faultless ls)
    (hline : ∀ e, ¬ Breaks ls line e) : Faultless (ls ++ [line]) := by
  intro before l after hls e hbreaks
  have hsplit := (exists_split_concat (P := fun before l _ => Breaks before l e)).mp
    ⟨before, l, after, hls, hbreaks⟩
  rcases hsplit with hlast | ⟨front, l', back, hls', hbreaks'⟩
  · exact hline e hlast
  · exact h front l' back hls' e hbreaks'

theorem FirstFault.not_faultless {ls : List (List Char)} {e : Error} (h : FirstFault ls e) :
    ¬ Faultless ls := by
  obtain ⟨before, line, after, hls, _, hbreaks⟩ := h
  exact fun hnone => hnone before line after hls e hbreaks

/-- There is one first fault. -/
theorem FirstFault.unique {ls : List (List Char)} {e e' : Error} (h : FirstFault ls e)
    (h' : FirstFault ls e') : e = e' := by
  obtain ⟨before, line, after, hls, hnone, hbreaks⟩ := h
  obtain ⟨before', line', after', hls', hnone', hbreaks'⟩ := h'
  have happend := List.append_eq_append_iff.mp (hls.symm.trans hls')
  rcases happend with ⟨mid, hmid, hrest⟩ | ⟨mid, hmid, hrest⟩
  · cases mid with
    | nil =>
      obtain ⟨rfl, _⟩ := List.cons.inj hrest
      rw [List.append_nil] at hmid
      exact hbreaks.unique (hmid ▸ hbreaks')
    | cons l mid =>
      obtain ⟨rfl, _⟩ := List.cons.inj hrest
      exact absurd hbreaks (hnone' before line mid hmid e)
  · cases mid with
    | nil =>
      obtain ⟨rfl, _⟩ := List.cons.inj hrest
      rw [List.append_nil] at hmid
      exact hbreaks.unique (hmid ▸ hbreaks')
    | cons l mid =>
      obtain ⟨rfl, _⟩ := List.cons.inj hrest
      exact absurd hbreaks' (hnone before' line' mid hmid e')

namespace ReadsAll

variable {done ls : List (List Char)} {step : Progress.Step}

/-- A text that is read to its end has no fault, and the maps hold what it says. -/
theorem of_ok (h : ReadsAll done ls step) {p : Progress} (hp : step = .ok p)
    (hdone : Faultless done) : Faultless (done ++ ls) ∧ Records (done ++ ls) p := by
  induction h with
  | nil hrecords =>
    cases hp
    rw [List.append_nil]
    exact ⟨hdone, hrecords⟩
  | stop _ => cases hp
  | cons hline _ ih =>
    cases hline with
    | passed hnone _ =>
      have hrest := ih hp (hdone.concat hnone)
      rwa [List.append_cons]

/-- Otherwise the error is that of the first fault, or there was no room. -/
theorem of_error (h : ReadsAll done ls step) {e : Error} {reports : Array Report}
    (hstep : step = .error (e, reports)) (hdone : Faultless done) :
    FirstFault (done ++ ls) e ∨ (∃ error, e = .storage error) ∧
      ∃ before line after, done ++ ls = before ++ line :: after ∧ 2 ^ 59 ≤ written before := by
  induction h with
  | nil _ => cases hstep
  | @stop done rest line _ hline =>
    cases hstep
    cases hline with
    | broken hbreaks => exact Or.inl ⟨done, line, rest, rfl, hdone, hbreaks⟩
    | noRoom hwritten => exact Or.inr ⟨⟨_, rfl⟩, done, line, rest, rfl, hwritten⟩
  | cons hline _ ih =>
    cases hline with
    | passed hnone _ =>
      have hrest := ih hstep (hdone.concat hnone)
      rwa [List.append_cons]

end ReadsAll

theorem parse_readsAll (text : String) :
    ReadsAll [] (trimmedLines text) (Progress.readAll {} 1 (lines text.toList)) :=
  Records.empty.readAll (lines text.toList)

/-- What is read holds what the text says. -/
theorem records_of_parse {text : String} {f : File} (h : (File.parse text).result = .ok f) :
    ∃ p, f = ⟨p.sections⟩ ∧ Faultless (trimmedLines text) ∧ Records (trimmedLines text) p := by
  have hreads := parse_readsAll text
  unfold File.parse at h
  split at h
  next => cases h
  next p hp =>
    cases h
    exact ⟨p, rfl, hreads.of_ok hp faultless_nil⟩

/-- A text is refused for its first fault, or for want of room if it is very long. -/
theorem fault_of_parse {text : String} {e : Error} (h : (File.parse text).result = .error e) :
    FirstFault (trimmedLines text) e ∨
      (∃ error, e = .storage error) ∧ 2 ^ 60 ≤ text.utf8ByteSize := by
  have hreads := parse_readsAll text
  unfold File.parse at h
  split at h
  next e' reports hstep =>
    cases h
    rcases hreads.of_error hstep faultless_nil with hfirst | ⟨hstorage, _, _, _, hls, hwritten⟩
    · exact Or.inl hfirst
    · have hbytes := two_mul_written_le hls
      exact Or.inr ⟨hstorage, by omega⟩
  next => cases h

/-- A short text is refused for its first fault only. -/
theorem firstFault_of_parse {text : String} (hlen : text.utf8ByteSize < 2 ^ 60) {e : Error}
    (h : (File.parse text).result = .error e) : FirstFault (trimmedLines text) e := by
  rcases fault_of_parse h with hfirst | ⟨_, hlong⟩
  · exact hfirst
  · omega

/-- A text of fewer than 2^60 bytes is read if no line breaks a rule, and refused with the
error of the first line that does, else. It is never refused for want of room. -/
theorem parse_exact (text : String) (hlen : text.utf8ByteSize < 2 ^ 60) :
    ((∃ f, (File.parse text).result = .ok f) ↔ Faultless (trimmedLines text)) ∧
      (∀ e, (File.parse text).result = .error e ↔ FirstFault (trimmedLines text) e) ∧
      ∀ e, (File.parse text).result ≠ .error (.storage e) := by
  cases hresult : (File.parse text).result with
  | ok f =>
    obtain ⟨_, _, hnone, _⟩ := records_of_parse hresult
    refine ⟨iff_of_true ⟨f, rfl⟩ hnone, fun e => ?_, fun e h => by cases h⟩
    exact iff_of_false (fun h => by cases h) fun hfirst => hfirst.not_faultless hnone
  | error e =>
    have hfirst := firstFault_of_parse hlen hresult
    refine ⟨iff_of_false (fun ⟨f, h⟩ => by cases h) hfirst.not_faultless, fun e' => ?_, ?_⟩
    · constructor
      · intro h
        cases h
        exact hfirst
      · exact fun hfirst' => congrArg Except.error (hfirst.unique hfirst')
    · intro error h
      cases h
      obtain ⟨_, _, _, _, _, hbreaks⟩ := hfirst
      cases hbreaks

/-- The second assignment has no key; the last line would be at fault as well. -/
theorem parse_exact_emptyKey :
    (File.parse "; a\n[a]\nb = 1\n\t= 2\nc").result = .error (.emptyKey 4) ∧
      FirstFault (trimmedLines "; a\n[a]\nb = 1\n\t= 2\nc") (.emptyKey 4) :=
  ⟨rfl, ((parse_exact _ (by decide)).2.1 _).mp rfl⟩

end Chaining.Ini

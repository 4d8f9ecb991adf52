import Chaining.Proofs.Map.Counts
import Chaining.Proofs.Map.Room

/-!
# The hash is not to be seen

Two maps whose keys are compared alike but hashed differently have nothing in common
inside: what is one long chain in the one may be spread over all buckets in the other.
Yet if both hashes respect the comparison, and no memory is refused, they answer alike
and let go of the same in the same order (`hash_independent`).

The classes of equal keys depend on the comparison alone, so both maps can represent one
and the same dictionary, and what the dictionary answers it answers for both. All it has
to be told is which puts are refused. Where memory is granted that depends on the counts:
the number of pairs, which is the dictionary's, the number of buckets and the sizing
(`Step.room_eq`). So maps that are `Alike` stay so, request by request (`Alike.respond`).
-/

namespace Chaining

open Table

universe u v

variable {K : Type u} {V : Type v} {ks : Keying K}

/-! ## What the dictionary decides -/

namespace Dictionary

variable {h : ks.Lawful}

/-- What is let go of in a request that is answered so. -/
def released (s : Dictionary h V) : Request K V → Answer K V → List (Release K V)
  | .put key _, .put (.stored .replaced) =>
    match s.lookup (h.classOf key) with
    | none => []
    | some old => [.value old.2, .key old.1]
  | .remove key, .flag true =>
    match s.lookup (h.classOf key) with
    | none => []
    | some old => [.pair old.1 old.2]
  | _, _ => []

end Dictionary

/-- What a map lets go of is what the dictionary has for the class of the key. -/
theorem Represents.released_eq {h : ks.Lawful} {m : Map ks V} {s : Dictionary h V}
    (hr : Represents h m s) {qs : List (K × V)} {request : Request K V} {answer : Answer K V}
    {releases : List (Release K V)}
    (ha : Account ks m.pairs qs request answer releases) :
    releases = s.released request answer := by
  -- the pair that gives way is what is found for its class
  have hlookup : ∀ {key : K} {old : K × V}, ks.equals old.1 key = true → old ∈ m.pairs →
      s.lookup (h.classOf key) = some old := by
    intro key old heq hmem
    rw [← h.classOf_eq.mpr heq]
    exact hr.lookup_of_mem hmem
  cases ha with
  | @replaced key _ old moved front back heq hmoved hold _ =>
    have hmem : old ∈ m.pairs := hmoved.mem_iff.mp (by rw [hold]; simp)
    rw [Dictionary.released, hlookup heq hmem]
  | @removed key old front back heq hold _ =>
    have hmem : old ∈ m.pairs := by rw [hold]; simp
    rw [Dictionary.released, hlookup heq hmem]
  | @read request _ hreads _ =>
    cases request <;> first | rfl | cases hreads
  | _ => rfl

/-- The pairs of a map are those of the dictionary. -/
theorem Represents.coe_pairs {h : ks.Lawful} {m : Map ks V} {s : Dictionary h V}
    (hr : Represents h m s) : (m.pairs : Multiset (K × V)) = s.entries.map Sigma.snd := by
  rw [← hr, Multiset.map_coe, List.map_map]
  exact congrArg _ (List.map_id _).symm

/-! ## What is seen -/

/-- What is seen of a turn from outside: its answer and what was let go of in it, and the
counts after it. -/
structure Seen (K : Type u) (V : Type v) where
  answer : Answer K V
  released : List (Release K V)
  len : Nat
  bucketCount : Nat
  watermark : Nat
  deriving DecidableEq

def Turn.seen (turn : Turn ks V) : Seen K V where
  answer := turn.outcome.answer
  released := turn.released
  len := turn.outcome.map.len
  bucketCount := turn.outcome.map.bucketCount
  watermark := turn.outcome.map.watermark

/-- Some requests to which all is granted. -/
def granting (run : List (Request K V)) : List (Conditions × Request K V) :=
  run.map (Conditions.granting, ·)

/-! ## Two maps -/

section TwoHashes

variable {equals : K → K → Bool} {hash₁ hash₂ : K → UInt64}
  {h₁ : (⟨hash₁, equals⟩ : Keying K).Lawful} {h₂ : (⟨hash₂, equals⟩ : Keying K).Lawful}
  {m₁ : Map ⟨hash₁, equals⟩ V} {m₂ : Map ⟨hash₂, equals⟩ V}

/-- Two maps that compare keys alike represent one dictionary, in as many buckets and by
the same sizing. -/
structure Alike (h₁ : (⟨hash₁, equals⟩ : Keying K).Lawful)
    (h₂ : (⟨hash₂, equals⟩ : Keying K).Lawful) (m₁ : Map ⟨hash₁, equals⟩ V)
    (m₂ : Map ⟨hash₂, equals⟩ V) : Prop where
  reachable₁ : m₁.Reachable
  reachable₂ : m₂.Reachable
  sizing_eq : m₁.sizing = m₂.sizing
  bucketCount_eq : m₁.bucketCount = m₂.bucketCount
  /-- Classes of equal keys are those of the comparison, whatever the hash. -/
  represents : ∃ s : Dictionary h₁ V, Represents h₁ m₁ s ∧ Represents h₂ m₂ s

/-- New maps are alike: there is nothing in them. -/
theorem alike_ofSizing (h₁ : (⟨hash₁, equals⟩ : Keying K).Lawful)
    (h₂ : (⟨hash₂, equals⟩ : Keying K).Lawful) (sizing : Sizing) :
    Alike h₁ h₂ (Map.ofSizing ⟨hash₁, equals⟩ sizing : Map _ V)
      (Map.ofSizing ⟨hash₂, equals⟩ sizing) where
  reachable₁ := .ofSizing _ _
  reachable₂ := .ofSizing _ _
  sizing_eq := rfl
  bucketCount_eq := rfl
  represents := ⟨∅, represents_ofSizing h₁ sizing, represents_ofSizing h₂ sizing⟩

namespace Dictionary

theorem respond_eq (h₁ : (⟨hash₁, equals⟩ : Keying K).Lawful)
    (h₂ : (⟨hash₂, equals⟩ : Keying K).Lawful) (s : Dictionary h₁ V)
    (refused : Option StorageError) (request : Request K V) :
    respond (h := h₁) s refused request = respond (h := h₂) s refused request := by
  cases request <;> rfl

theorem released_eq (h₁ : (⟨hash₁, equals⟩ : Keying K).Lawful)
    (h₂ : (⟨hash₂, equals⟩ : Keying K).Lawful) (s : Dictionary h₁ V)
    (request : Request K V) (answer : Answer K V) :
    released (h := h₁) s request answer = released (h := h₂) s request answer :=
  rfl

end Dictionary

theorem Alike.len_eq (h : Alike h₁ h₂ m₁ m₂) : m₁.len = m₂.len := by
  obtain ⟨s, hr₁, hr₂⟩ := h.represents
  exact (hr₁.len_eq h.reachable₁.wellFormed).trans (hr₂.len_eq h.reachable₂.wellFormed).symm

/-- They hold the same pairs. -/
theorem Alike.perm (h : Alike h₁ h₂ m₁ m₂) : m₁.pairs.Perm m₂.pairs := by
  obtain ⟨s, hr₁, hr₂⟩ := h.represents
  exact Multiset.coe_eq_coe.mp (hr₁.coe_pairs.trans hr₂.coe_pairs.symm)

/-- Alike maps answer a request alike, let go of the same, and stay alike. -/
theorem Alike.respond (h : Alike h₁ h₂ m₁ m₂) (request : Request K V) :
    (m₁.respond .granting request).answer = (m₂.respond .granting request).answer ∧
      (m₁.respond .granting request).transcript.releases.toList =
        (m₂.respond .granting request).transcript.releases.toList ∧
      Alike h₁ h₂ (m₁.respond .granting request).map (m₂.respond .granting request).map := by
  obtain ⟨s, hr₁, hr₂⟩ := h.represents
  have hw₁ := h.reachable₁.wellFormed
  have hw₂ := h.reachable₂.wellFormed
  have hd₁ := h.reachable₁.distinct h₁.toPartialEquivalence
  have hd₂ := h.reachable₂.distinct h₂.toPartialEquivalence
  have hstep₁ := m₁.respond_step .granting request
  have hstep₂ := m₂.respond_step .granting request
  -- the counts agree, so both are refused or neither is, and both grow or neither does
  have hok₁ := hstep₁.undisturbed hw₁ hd₁
  have hok₂ := hstep₂.undisturbed hw₂ hd₂
  have hroom₁ := hstep₁.room_eq hw₁ h.reachable₁.gauged hok₁
  have hroom₂ := hstep₂.room_eq hw₂ h.reachable₂.gauged hok₂
  rw [h.sizing_eq, h.len_eq, h.bucketCount_eq] at hroom₁
  obtain ⟨hrefusal, hcount⟩ := Prod.mk.inj (hroom₁.trans hroom₂.symm)
  obtain ⟨s₁, hrespond₁, hafter₁⟩ := hr₁.step hw₁ hd₁ rfl hstep₁
  obtain ⟨s₂, hrespond₂, hafter₂⟩ := hr₂.step hw₂ hd₂ rfl hstep₂
  have hsame := hrespond₁.symm.trans ((Dictionary.respond_eq h₁ h₂ s _ request).trans
    ((congrArg (Dictionary.respond (h := h₂) s · request) hrefusal).trans hrespond₂))
  obtain ⟨hanswer, hs⟩ := Prod.mk.inj hsame
  have hreleased₁ := hr₁.released_eq (hstep₁.account hw₁ (Answer.isFault_of_undisturbed hok₁))
  have hreleased₂ := hr₂.released_eq (hstep₂.account hw₂ (Answer.isFault_of_undisturbed hok₂))
  refine ⟨hanswer, ?_, ?_⟩
  · rw [hreleased₁, hreleased₂, ← hanswer]
    exact Dictionary.released_eq h₁ h₂ s _ _
  · exact {
      reachable₁ := .responded _ _ h.reachable₁
      reachable₂ := .responded _ _ h.reachable₂
      sizing_eq := hstep₁.sizing_eq.trans (h.sizing_eq.trans hstep₂.sizing_eq.symm)
      bucketCount_eq := hcount
      represents := ⟨s₁, hafter₁, hs ▸ hafter₂⟩ }

/-- They have the same watermark. -/
theorem Alike.watermark_eq (h : Alike h₁ h₂ m₁ m₂) : m₁.watermark = m₂.watermark := by
  rw [h.reachable₁.gauged.watermark_eq, h.reachable₂.gauged.watermark_eq, h.bucketCount_eq]

theorem Alike.run (h : Alike h₁ h₂ m₁ m₂) (run : List (Request K V)) :
    (m₁.turns (granting run)).map Turn.seen = (m₂.turns (granting run)).map Turn.seen ∧
      Alike h₁ h₂ (m₁.after (granting run)) (m₂.after (granting run)) := by
  induction run generalizing m₁ m₂ with
  | nil => exact ⟨rfl, h⟩
  | cons request rest ih =>
    obtain ⟨hanswer, hreleased, hnext⟩ := h.respond request
    obtain ⟨hseen, hafter⟩ := ih hnext
    have hfirst : Turn.seen ⟨m₁, .granting, request, m₁.respond .granting request⟩ =
        Turn.seen ⟨m₂, .granting, request, m₂.respond .granting request⟩ :=
      Seen.mk.injEq .. ▸ ⟨hanswer, hreleased, hnext.len_eq, hnext.bucketCount_eq,
        hnext.watermark_eq⟩
    exact ⟨List.cons_eq_cons.mpr ⟨hfirst, hseen⟩, hafter⟩

/-- Where all memory is granted, two hashes that respect one comparison are not told
apart by any run: turn by turn the answers, the releases and the counts are the same,
and in the end the same pairs are listed and let go of, each by its own order. -/
theorem hash_independent (h₁ : (⟨hash₁, equals⟩ : Keying K).Lawful)
    (h₂ : (⟨hash₂, equals⟩ : Keying K).Lawful) (sizing : Sizing) (run : List (Request K V)) :
    ((Map.ofSizing ⟨hash₁, equals⟩ sizing).turns (granting run)).map Turn.seen =
        ((Map.ofSizing ⟨hash₂, equals⟩ sizing).turns (granting run)).map Turn.seen ∧
      ((Map.ofSizing ⟨hash₁, equals⟩ sizing).after (granting run)).traverse.Perm
        ((Map.ofSizing ⟨hash₂, equals⟩ sizing).after (granting run)).traverse ∧
      ((Map.ofSizing ⟨hash₁, equals⟩ sizing).after (granting run)).releases.toList.Perm
        ((Map.ofSizing ⟨hash₂, equals⟩ sizing).after (granting run)).releases.toList := by
  obtain ⟨hseen, hafter⟩ := (alike_ofSizing (V := V) h₁ h₂ sizing).run run
  have hl₁ := hafter.reachable₁.wellFormed.linked
  have hl₂ := hafter.reachable₂.wellFormed.linked
  have hperm : ((Map.ofSizing ⟨hash₁, equals⟩ sizing).after (granting run)).traverse.Perm
      ((Map.ofSizing ⟨hash₂, equals⟩ sizing).after (granting run)).traverse := by
    rw [Map.traverse_eq_pairs hl₁, Map.traverse_eq_pairs hl₂]
    exact hafter.perm
  refine ⟨hseen, hperm, ?_⟩
  rw [Map.releases_toList hl₁, Map.releases_toList hl₂]
  exact hperm.map _

end TwoHashes

/-- Keys that meet in one bucket, or have each their own: a growth, a put that a limit of
four buckets turns down, a removal and a replacement. -/
def meeting : List (Request UInt64 Nat) :=
  [.put 0 10, .put 1 11, .put 2 12, .remove 1, .put 0 13, .modify 0 (· + 1), .put 2 14, .steal 0]

/-- What is seen where each key has its bucket is seen where all are in one. -/
theorem hash_independent_meeting :
    ((Map.ofSizing (⟨fun _ => 0, (· == ·)⟩ : Keying UInt64)
        ((Sizing.standard.withInitial 1).withLimit 4)).turns (granting meeting)).map Turn.seen =
      [⟨.put (.stored .inserted), [], 1, 4, 2⟩, ⟨.put (.stored .inserted), [], 2, 4, 2⟩,
        ⟨.put (.rejected ⟨2, 12, .capacityOverflow 4⟩), [], 2, 4, 2⟩,
        ⟨.flag true, [.pair 1 11], 1, 4, 2⟩,
        ⟨.put (.stored .replaced), [.value 10, .key 0], 1, 4, 2⟩,
        ⟨.value (some 14), [], 1, 4, 2⟩, ⟨.put (.stored .inserted), [], 2, 4, 2⟩,
        ⟨.pair (some (0, 14)), [], 1, 4, 2⟩] := by
  rw [← (hash_independent (Keying.lawful_beq id) (Keying.lawful_beq fun _ => 0)
    ((Sizing.standard.withInitial 1).withLimit 4) meeting).1]
  decide

end Chaining

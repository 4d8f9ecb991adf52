import Mathlib.Data.Finmap
import Chaining.Proofs.Map.Reachable

/-!
# Maps as dictionaries

Under a lawful keying a map is a dictionary from classes of equal keys to stored
pairs, and nothing of its buckets, chains and vacant slots is to be seen in its
answers. `Dictionary` is that finite map, and `Dictionary.respond` says how it
answers; the one thing it is told is which puts were refused room.

A map `Represents` the dictionary that has its pairs as entries. To look a key up
in the one is to look its class up in the other (`Represents.search_eq`): the
lookup goes to one bucket only, but a pair with an equal key is there. Each
request is answered alike and keeps the two together (`Represents.respond`), and
so is each run from a new map (`answers_eq_dictionary`).
-/

namespace Chaining

universe u v

variable {K : Type u} {V : Type v} {ks : Keying K}

namespace Keying.Lawful

/-- Keys that are found equal are of one class. -/
def setoid (h : ks.Lawful) : Setoid K where
  r a b := ks.equals a b = true
  iseqv := ⟨h.refl, h.symm, h.trans⟩

instance (h : ks.Lawful) : DecidableEq (Quotient h.setoid) :=
  @Quotient.decidableEq K h.setoid fun a b => inferInstanceAs (Decidable (ks.equals a b = true))

def classOf (h : ks.Lawful) (key : K) : Quotient h.setoid :=
  Quotient.mk h.setoid key

theorem classOf_eq (h : ks.Lawful) {a b : K} :
    h.classOf a = h.classOf b ↔ ks.equals a b = true :=
  Quotient.eq (r := h.setoid)

end Keying.Lawful

/-- A finite map from classes of equal keys to stored pairs. -/
abbrev Dictionary (h : ks.Lawful) (V : Type v) : Type (max u v) :=
  Finmap fun _ : Quotient h.setoid => K × V

/-- Why the pair of a put was not stored, if the put was rejected. -/
def Answer.refusal : Answer K V → Option StorageError
  | .put (.rejected r) => some r.error
  | _ => none

namespace Dictionary

variable {h : ks.Lawful}

/-- How a dictionary answers a request, and what it is afterwards. A put that is
refused changes nothing. -/
def respond (s : Dictionary h V) (refused : Option StorageError) :
    Request K V → Answer K V × Dictionary h V
  | .put key value =>
    match refused with
    | some error => (.put (.rejected ⟨key, value, error⟩), s)
    | none =>
      (.put (.stored (if h.classOf key ∈ s then .replaced else .inserted)),
        s.insert (h.classOf key) (key, value))
  | .get key => (.value ((s.lookup (h.classOf key)).map Prod.snd), s)
  | .getPair key => (.pair (s.lookup (h.classOf key)), s)
  | .contains key => (.flag (h.classOf key ∈ s), s)
  | .modify key f =>
    match s.lookup (h.classOf key) with
    | none => (.value none, s)
    | some kv => (.value (some (f kv.2)), s.insert (h.classOf key) (kv.1, f kv.2))
  | .remove key => (.flag (h.classOf key ∈ s), s.erase (h.classOf key))
  | .steal key => (.pair (s.lookup (h.classOf key)), s.erase (h.classOf key))
  | .len => (.count s.keys.card, s)

/-- The answers to some requests, one after the other. -/
def answers (s : Dictionary h V) : List (Option StorageError × Request K V) → List (Answer K V)
  | [] => []
  | (refused, request) :: rest =>
    (s.respond refused request).1 :: (s.respond refused request).2.answers rest

/-- The dictionary after some requests. -/
def after (s : Dictionary h V) : List (Option StorageError × Request K V) → Dictionary h V
  | [] => s
  | (refused, request) :: rest => (s.respond refused request).2.after rest

/-! ## Entries -/

theorem entries_of_lookup {s : Dictionary h V} {c : Quotient h.setoid} {kv : K × V}
    (hs : s.lookup c = some kv) : s.entries = ⟨c, kv⟩ ::ₘ (s.erase c).entries := by
  have hinsert : s = (s.erase c).insert c kv := by
    refine Finmap.ext_lookup fun x => ?_
    by_cases hx : x = c
    · rw [hx, Finmap.lookup_insert, hs]
    · rw [Finmap.lookup_insert_of_ne _ hx, Finmap.lookup_erase_ne hx]
  have hentries : ((s.erase c).insert c kv).entries = ⟨c, kv⟩ ::ₘ (s.erase c).entries :=
    Finmap.entries_insert_of_notMem Finmap.notMem_erase_self
  rwa [← hinsert] at hentries

/-- An entry put in takes the place of that of its class. -/
theorem entries_insert (s : Dictionary h V) (c : Quotient h.setoid) (kv : K × V) :
    (s.insert c kv).entries = ⟨c, kv⟩ ::ₘ (s.erase c).entries := by
  have herase : (s.insert c kv).erase c = s.erase c := by
    refine Finmap.ext_lookup fun x => ?_
    by_cases hx : x = c
    · rw [hx, Finmap.lookup_erase, Finmap.lookup_erase]
    · rw [Finmap.lookup_erase_ne hx, Finmap.lookup_insert_of_ne _ hx, Finmap.lookup_erase_ne hx]
  rw [← herase]
  exact entries_of_lookup (Finmap.lookup_insert s)

theorem erase_of_notMem {s : Dictionary h V} {c : Quotient h.setoid} (hc : c ∉ s) :
    s.erase c = s := by
  refine Finmap.ext_lookup fun x => ?_
  by_cases hx : x = c
  · rw [hx, Finmap.lookup_erase, Finmap.lookup_eq_none.mpr hc]
  · rw [Finmap.lookup_erase_ne hx]

end Dictionary

/-! ## Representation -/

/-- The entry of a dictionary for a stored pair. -/
def Keying.Lawful.entry (h : ks.Lawful) (kv : K × V) : Σ _ : Quotient h.setoid, K × V :=
  ⟨h.classOf kv.1, kv⟩

/-- The pairs of the map are the entries of the dictionary, each once. -/
def Represents (h : ks.Lawful) (m : Map ks V) (s : Dictionary h V) : Prop :=
  (m.pairs.map h.entry : Multiset _) = s.entries

namespace Represents

open Table

variable {h : ks.Lawful} {m after : Map ks V} {s : Dictionary h V} {c : Conditions}
  {releases : List (Release K V)}

/-- A pair of the map is what is found for its class. -/
theorem lookup_of_mem (hr : Represents h m s) {kv : K × V} (hkv : kv ∈ m.pairs) :
    s.lookup (h.classOf kv.1) = some kv := by
  refine Finmap.lookup_eq_some_iff.mpr ?_
  have hmem : h.entry kv ∈ (m.pairs.map h.entry : Multiset _) :=
    Multiset.mem_coe.mpr (List.mem_map_of_mem hkv)
  rwa [hr] at hmem

/-- What is found for the class of a key is a pair of the bucket of the key's hash,
with an equal key. -/
theorem of_lookup (hr : Represents h m s) (hw : m.table.WellFormed ks) {key : K}
    {kv : K × V} (hs : s.lookup (h.classOf key) = some kv) :
    kv ∈ m.table.pairsIn (m.table.bucketOf (ks.hash key)) ∧ ks.equals kv.1 key = true := by
  have hmem := Finmap.lookup_eq_some_iff.mp hs
  rw [← hr] at hmem
  obtain ⟨kv', hkv', hentry⟩ := List.mem_map.mp (Multiset.mem_coe.mp hmem)
  obtain ⟨hclass, hpair⟩ := Sigma.mk.inj hentry
  obtain rfl := eq_of_heq hpair
  have heq := h.classOf_eq.mp hclass
  -- keys found equal hash alike, so the pair is in the bucket that is searched
  refine ⟨?_, heq⟩
  rw [← h.hash_eq heq]
  exact hw.mem_pairsIn hkv'

/-- Where all keys of its bucket are turned down, there is nothing for a key. -/
theorem notMem_of_unmatched (hr : Represents h m s) (hw : m.table.WellFormed ks) {key : K}
    (hun : Unmatched ks key (m.table.pairsIn (m.table.bucketOf (ks.hash key)))) :
    h.classOf key ∉ s := by
  intro hmem
  obtain ⟨kv, hkv⟩ := Finmap.mem_iff.mp hmem
  obtain ⟨hin, heq⟩ := hr.of_lookup hw hkv
  rw [hun kv hin] at heq
  cases heq

/-- To look up a key is to look up its class. -/
theorem search_eq (hr : Represents h m s) (hw : m.table.WellFormed ks) (key : K) :
    (m.search key).found.map Entry.pair = s.lookup (h.classOf key) := by
  cases hs : (m.search key).found with
  | none =>
    have hnot := hr.notMem_of_unmatched hw (Map.unmatched_of_search hs)
    exact (Finmap.lookup_eq_none.mpr hnot).symm
  | some e =>
    obtain ⟨hk, front, back, hold, _⟩ := Map.exists_pairs_of_search hs hw
    have hmem : e.pair ∈ m.pairs := by
      rw [hold]
      simp
    rw [← h.classOf_eq.mpr hk]
    exact (hr.lookup_of_mem hmem).symm

theorem lookup_of_search (hr : Represents h m s) (hw : m.table.WellFormed ks) {key : K}
    {e : Entry K V} (hs : (m.search key).found = some e) :
    h.classOf e.pair.1 = h.classOf key ∧ s.lookup (h.classOf key) = some e.pair := by
  refine ⟨h.classOf_eq.mpr (Map.exists_pairs_of_search hs hw).1, ?_⟩
  rw [← hr.search_eq hw, hs]
  rfl

theorem lookup_of_search_none (hr : Represents h m s) (hw : m.table.WellFormed ks) {key : K}
    (hs : (m.search key).found = none) : s.lookup (h.classOf key) = none := by
  rw [← hr.search_eq hw, hs]
  rfl

theorem len_eq (hr : Represents h m s) (hw : m.table.WellFormed ks) : m.len = s.keys.card := by
  have hcard := congrArg Multiset.card hr
  rw [Multiset.coe_card, List.length_map] at hcard
  have hkeys : s.keys.card = Multiset.card s.entries := Multiset.card_map _ _
  rw [hkeys, ← hcard]
  exact hw.len_eq

theorem perm (hr : Represents h m s) (hp : after.pairs.Perm m.pairs) : Represents h after s :=
  (Multiset.coe_eq_coe.mpr (hp.map _)).trans hr

/-- The pair found for a class, and the entries of all others. -/
theorem entries_erase (hr : Represents h m s) {front back : List (K × V)} {old : K × V}
    (hs : m.pairs = front ++ old :: back) :
    ((front ++ back).map h.entry : Multiset _) = (s.erase (h.classOf old.1)).entries := by
  have hlookup : s.lookup (h.classOf old.1) = some old :=
    hr.lookup_of_mem (by rw [hs]; simp)
  have hentries := hr
  unfold Represents at hentries
  rw [Dictionary.entries_of_lookup hlookup, hs,
    Multiset.coe_eq_coe.mpr (List.perm_middle.map h.entry), List.map_cons,
    ← Multiset.cons_coe] at hentries
  exact (Multiset.cons_inj_right _).mp hentries

theorem erase (hr : Represents h m s) {front back : List (K × V)} {old : K × V}
    (hold : m.pairs = front ++ old :: back) (hnew : after.pairs = front ++ back) :
    Represents h after (s.erase (h.classOf old.1)) := by
  unfold Represents
  rw [hnew]
  exact hr.entries_erase hold

/-- With another pair of the class in its place the map represents the dictionary
with that pair put in. -/
theorem insert (hr : Represents h m s) {front back : List (K × V)} {old new : K × V}
    (hold : m.pairs = front ++ old :: back) (hnew : after.pairs = front ++ new :: back)
    (hclass : h.classOf new.1 = h.classOf old.1) :
    Represents h after (s.insert (h.classOf old.1) new) := by
  have hentry : h.entry new = ⟨h.classOf old.1, new⟩ := by rw [Keying.Lawful.entry, hclass]
  unfold Represents
  rw [hnew, Multiset.coe_eq_coe.mpr (List.perm_middle.map h.entry), List.map_cons,
    ← Multiset.cons_coe, hr.entries_erase hold, Dictionary.entries_insert, hentry]

/-- With a pair of a new class the map represents the dictionary with it put in. -/
theorem insert_of_notMem (hr : Represents h m s) {new : K × V}
    (hp : after.pairs.Perm (new :: m.pairs)) (hnot : h.classOf new.1 ∉ s) :
    Represents h after (s.insert (h.classOf new.1) new) := by
  unfold Represents
  rw [Multiset.coe_eq_coe.mpr (hp.map h.entry), List.map_cons, ← Multiset.cons_coe, hr,
    Dictionary.entries_insert, Dictionary.erase_of_notMem hnot]
  rfl

/-! ## Requests -/

theorem put (hr : Represents h m s) (hw : m.table.WellFormed ks) (hd : m.table.Distinct ks)
    (hc : c.reentry = .never) {key : K} {value : V} {result : PutResult K V}
    (hput : m.Puts c key value result after releases) :
    ∃ s', s.respond (Answer.put result).refusal (.put key value) = (.put result, s') ∧
      Represents h after s' := by
  cases hput with
  | notGrown _ _ => exact ⟨s, rfl, hr⟩
  | broken _ hg => exact absurd hg (Map.grow_ne_faulted hw hd hc _ _ _)
  | @placed base _ _ _ _ hp hplaces =>
    have hbase := hp.wellFormed hw
    -- growth only moves pairs
    have hr := hr.perm (hp.perm hw)
    cases hplaces with
    | noSlot _ _ => exact ⟨s, rfl, hr⟩
    | reentered hne => exact absurd hc hne
    | @stored place hf _ =>
      have hb := hbase.bucketOf_lt (ks.hash key)
      obtain ⟨before, behind, hx, _⟩ := hbase.linked.exchange_store hb hf (key, value)
      have hrespond : s.respond none (.put key value) =
          (.put (.stored (if h.classOf key ∈ s then .replaced else .inserted)),
            s.insert (h.classOf key) (key, value)) := rfl
      refine ⟨s.insert (h.classOf key) (key, value), ?_, ?_⟩
      · -- the class is there exactly if a pair gives way
        refine hrespond.trans ?_
        rw [place.change_eq]
        cases hgone : place.displaced with
        | none =>
          rw [if_neg (hr.notMem_of_unmatched hbase (hf.unmatched hgone))]
          rfl
        | some old =>
          obtain ⟨hin, heq⟩ := hf.of_displaced hgone
          have hlookup := hr.lookup_of_mem (mem_pairs.mpr ⟨_, hb, hin⟩)
          rw [h.classOf_eq.mpr heq] at hlookup
          rw [if_pos (Finmap.mem_of_lookup_eq_some hlookup)]
          rfl
      · cases hgone : place.displaced with
        | none =>
          rw [hgone] at hx
          have hnot : h.classOf (key, value).1 ∉ s :=
            hr.notMem_of_unmatched hbase (hf.unmatched hgone)
          refine hr.insert_of_notMem ?_ hnot
          exact hx.perm
        | some old =>
          have hclass := h.classOf_eq.mpr (hf.of_displaced hgone).2
          obtain ⟨hold, hnew⟩ := hx.pairs
          rw [hgone, Option.toList_some, List.append_assoc] at hold
          rw [Option.toList_some, List.append_assoc] at hnew
          rw [← hclass]
          exact hr.insert hold hnew hclass.symm

/-- A request without a fault is answered as in the dictionary. -/
theorem step (hr : Represents h m s) (hw : m.table.WellFormed ks) (hd : m.table.Distinct ks)
    (hc : c.reentry = .never) {request : Request K V} {answer : Answer K V}
    (hstep : m.Step c request answer after releases) :
    ∃ s', s.respond answer.refusal request = (answer, s') ∧ Represents h after s' := by
  cases hstep with
  | put hput => exact hr.put hw hd hc hput
  | reentered hne => exact absurd hc hne
  | len =>
    refine ⟨s, ?_, hr⟩
    rw [hr.len_eq hw]
    rfl
  | get key =>
    refine ⟨s, ?_, hr⟩
    have hget : m.get? key = (s.lookup (h.classOf key)).map Prod.snd := by
      rw [← hr.search_eq hw, Option.map_map]
      rfl
    rw [hget]
    rfl
  | getPair key =>
    refine ⟨s, ?_, hr⟩
    rw [Map.getPair?, hr.search_eq hw]
    rfl
  | contains key =>
    refine ⟨s, ?_, hr⟩
    have hcontains : m.contains key = decide (h.classOf key ∈ s) := by
      rw [Map.contains, ← Option.isSome_map (f := Entry.pair), hr.search_eq hw]
      exact Bool.eq_iff_iff.mpr (Finmap.lookup_isSome.trans decide_eq_true_iff.symm)
    rw [hcontains]
    rfl
  | @modifyNone key f hs =>
    have hlookup := hr.lookup_of_search_none hw hs
    refine ⟨s, ?_, hr⟩
    rw [Dictionary.respond, hlookup]
  | @modify key f e hs =>
    obtain ⟨hclass, hlookup⟩ := hr.lookup_of_search hw hs
    obtain ⟨_, front, back, hold, _, hnew⟩ := Map.exists_pairs_of_search hs hw
    refine ⟨s.insert (h.classOf key) (e.key, f e.value), ?_, ?_⟩
    · rw [Dictionary.respond, hlookup]
      rfl
    · rw [← hclass]
      exact hr.insert hold (hnew f) rfl
  | @removeNone key hs =>
    have hnot := Finmap.lookup_eq_none.mp (hr.lookup_of_search_none hw hs)
    refine ⟨s, ?_, hr⟩
    rw [Dictionary.respond, decide_eq_false hnot, Dictionary.erase_of_notMem hnot]
  | @remove key e hs =>
    obtain ⟨hclass, hlookup⟩ := hr.lookup_of_search hw hs
    obtain ⟨_, front, back, hold, hnew, _⟩ := Map.exists_pairs_of_search hs hw
    refine ⟨s.erase (h.classOf key), ?_, ?_⟩
    · rw [Dictionary.respond, decide_eq_true (Finmap.mem_of_lookup_eq_some hlookup)]
    · rw [← hclass]
      exact hr.erase hold hnew
  | @stealNone key hs =>
    have hlookup := hr.lookup_of_search_none hw hs
    refine ⟨s, ?_, hr⟩
    rw [Dictionary.respond, hlookup, Dictionary.erase_of_notMem (Finmap.lookup_eq_none.mp hlookup)]
  | @steal key e hs =>
    obtain ⟨hclass, hlookup⟩ := hr.lookup_of_search hw hs
    obtain ⟨_, front, back, hold, hnew, _⟩ := Map.exists_pairs_of_search hs hw
    refine ⟨s.erase (h.classOf key), ?_, ?_⟩
    · rw [Dictionary.respond, hlookup]
    · rw [← hclass]
      exact hr.erase hold hnew

end Represents

theorem represents_ofSizing (h : ks.Lawful) (sizing : Sizing) :
    Represents h (Map.ofSizing ks sizing : Map ks V) ∅ := by
  have hpairs : (Map.ofSizing ks sizing : Map ks V).pairs = [] := Table.pairs_ofBuckets _
  unfold Represents
  rw [hpairs]
  rfl

/-! ## Runs -/

/-- Some requests without faults, each under an allocator. -/
def unperturbed (run : List (Allocator × Request K V)) : List (Conditions × Request K V) :=
  run.map fun r => ({ allocator := r.1, reentry := .never }, r.2)

namespace Map

def answers (m : Map ks V) (run : List (Conditions × Request K V)) : List (Answer K V) :=
  (m.turns run).map fun turn => turn.outcome.answer

/-- The requests of a run, and why puts among them were rejected. -/
def asked (m : Map ks V) (run : List (Conditions × Request K V)) :
    List (Option StorageError × Request K V) :=
  (m.turns run).map fun turn => (turn.outcome.answer.refusal, turn.request)

end Map

/-- Without faults a run is answered as in the dictionary. -/
theorem Represents.run {h : ks.Lawful} {m : Map ks V} {s : Dictionary h V}
    (hr : Represents h m s) (hw : m.table.WellFormed ks) (hd : m.table.Distinct ks)
    (run : List (Allocator × Request K V)) :
    m.answers (unperturbed run) = s.answers (m.asked (unperturbed run)) ∧
      Represents h (m.after (unperturbed run)) (s.after (m.asked (unperturbed run))) := by
  induction run generalizing m s with
  | nil => exact ⟨rfl, hr⟩
  | cons r rest ih =>
    let c : Conditions := { allocator := r.1, reentry := .never }
    have hstep := m.respond_step c r.2
    obtain ⟨s', hrespond, hr'⟩ := hr.step hw hd rfl hstep
    obtain ⟨hanswers, hafter⟩ := ih hr' (hstep.wellFormed hw)
      (hstep.distinct hw h.toPartialEquivalence hd)
    have hasked : m.asked (unperturbed (r :: rest)) =
        ((m.respond c r.2).answer.refusal, r.2) ::
          (m.respond c r.2).map.asked (unperturbed rest) := rfl
    have hfirst : m.answers (unperturbed (r :: rest)) =
        (m.respond c r.2).answer :: (m.respond c r.2).map.answers (unperturbed rest) := rfl
    constructor
    · rw [hasked, hfirst, Dictionary.answers, hrespond, hanswers]
    · rw [hasked, Dictionary.after, hrespond]
      exact hafter

/-- A map under a lawful keying, such as that of machine words or of texts, answers
every run as the dictionary does, however often it grows and whatever is refused.
In the end, as at any time before, its traversal lists the entries of the
dictionary, each once. -/
theorem answers_eq_dictionary (h : ks.Lawful) (sizing : Sizing)
    (run : List (Allocator × Request K V)) :
    ((∀ (W : Type) [WordKey W], (Keying.word : Keying W).Lawful) ∧ Keying.text.Lawful) ∧
      (Map.ofSizing ks sizing).answers (unperturbed run) =
        (∅ : Dictionary h V).answers ((Map.ofSizing ks sizing).asked (unperturbed run)) ∧
      (((Map.ofSizing ks sizing).after (unperturbed run)).traverse.map h.entry : Multiset _) =
        ((∅ : Dictionary h V).after
          ((Map.ofSizing ks sizing).asked (unperturbed run))).entries ∧
      ((Map.ofSizing ks sizing).after (unperturbed run)).len =
        ((∅ : Dictionary h V).after
          ((Map.ofSizing ks sizing).asked (unperturbed run))).keys.card := by
  have hnew : (Map.ofSizing ks sizing : Map ks V).Reachable := .ofSizing ks sizing
  obtain ⟨hanswers, hafter⟩ :=
    (represents_ofSizing h sizing).run hnew.wellFormed (Table.distinct_ofBuckets ks _) run
  have hw := (hnew.after (unperturbed run)).wellFormed
  refine ⟨⟨fun W _ => Keying.lawful_word W, Keying.lawful_text⟩, hanswers, ?_, hafter.len_eq hw⟩
  rw [Map.traverse_eq_pairs hw.linked]
  exact hafter

/-- A put that is refused a slot, and is not in the dictionary. -/
theorem answers_eq_dictionary_refused :
    (∅ : Dictionary (Keying.lawful_word UInt64) Nat).answers
        ((Map.ofSizing Keying.word (Sizing.standard.withInitial 1)).asked (unperturbed
          [(.addressable, .put 0 10), (.addressable, .put 1 11), (.refusing 3, .put 16 12),
            (.addressable, .put 0 13), (.addressable, .getPair 16), (.addressable, .remove 0),
            (.addressable, .len)])) =
      [.put (.stored .inserted), .put (.stored .inserted),
        .put (.rejected ⟨16, 12, .allocationFailed 1⟩), .put (.stored .replaced), .pair none,
        .flag true, .count 1] := by
  rw [← (answers_eq_dictionary (Keying.lawful_word UInt64) (Sizing.standard.withInitial 1) _).2.1]
  decide

end Chaining

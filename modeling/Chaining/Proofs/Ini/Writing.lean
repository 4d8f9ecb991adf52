import Mathlib.Data.List.TakeWhile
import Chaining.Proofs.Ini.Grammar

/-!
# Writing INI texts

How a collection of sections is written as a text. `Document` is the collection, and
`Document.items` what is to be written, a header for each section and behind it an
assignment for each of its keys. `Spells` says which lines an item may be written as, with
blanks wherever they are allowed, and `Writes` that some lines spell some items in order,
with empty lines and comments anywhere between them.

Names, keys and values are `Bare`, and a key is such that a line may begin with it; then
the lines are of the kinds of the items they spell (`Writes.said_eq`). Line ends do not
disturb that: a carriage return before a line feed is taken off (`lines_withReturns`), and
where there are line feeds only, a return that a line itself ends in is missed by no item
but a value (`Writes.strip`).
-/

namespace Chaining

/-! ## Blanks around a text -/

/-- There are only spaces and tabs. -/
def Blank (cs : List Char) : Prop :=
  ∀ c ∈ cs, isBlank c = true

/-- A text on one line, with no blank at either end. -/
structure Bare (cs : List Char) : Prop where
  noFeed : '\n' ∉ cs
  first : ∀ c ∈ cs.head?, isBlank c = false
  last : ∀ c ∈ cs.getLast?, isBlank c = false

/-- A text with which a line may begin that assigns to it. -/
structure BareKey (cs : List Char) : Prop extends Bare cs where
  ne_nil : cs ≠ []
  noEquals : '=' ∉ cs
  first_ne : ∀ c ∈ cs.head?, c ≠ '[' ∧ c ≠ '#' ∧ c ≠ ';'

instance (cs : List Char) : Decidable (Blank cs) :=
  List.decidableBAll (fun c => isBlank c = true) cs

instance (cs : List Char) : Decidable (Bare cs) :=
  decidable_of_iff ('\n' ∉ cs ∧ (cs.head?.all fun c => !isBlank c) = true ∧
      (cs.getLast?.all fun c => !isBlank c) = true)
    ⟨fun h => ⟨h.1, by simpa [Option.all_eq_true] using h.2.1,
        by simpa [Option.all_eq_true] using h.2.2⟩,
      fun h => ⟨h.noFeed, by simpa [Option.all_eq_true] using h.first,
        by simpa [Option.all_eq_true] using h.last⟩⟩

instance (cs : List Char) : Decidable (BareKey cs) :=
  decidable_of_iff (Bare cs ∧ cs ≠ [] ∧ '=' ∉ cs ∧
      (cs.head?.all fun c => c != '[' && c != '#' && c != ';') = true)
    ⟨fun h => ⟨h.1, h.2.1, h.2.2.1, by simpa [Option.all_eq_true, and_assoc] using h.2.2.2⟩,
      fun h => ⟨h.toBare, h.ne_nil, h.noEquals,
        by simpa [Option.all_eq_true, and_assoc] using h.first_ne⟩⟩

theorem blank_nil : Blank [] :=
  List.forall_mem_nil _

theorem Blank.append {a b : List Char} (ha : Blank a) (hb : Blank b) : Blank (a ++ b) :=
  List.forall_mem_append.mpr ⟨ha, hb⟩

theorem Blank.notMem {a : List Char} (ha : Blank a) {c : Char} (hc : isBlank c = false) :
    c ∉ a := by
  intro hmem
  rw [ha c hmem] at hc
  cases hc

/-- A text that begins with no blank. -/
theorem dropWhile_eq_self {cs : List Char} (h : ∀ c ∈ cs.head?, isBlank c = false) :
    cs.dropWhile isBlank = cs := by
  cases cs with
  | nil => rfl
  | cons c cs => exact List.dropWhile_cons_of_neg (by rw [h c rfl]; exact Bool.false_ne_true)

theorem first_dropWhile (cs : List Char) :
    ∀ c ∈ (cs.dropWhile isBlank).head?, isBlank c = false := by
  intro c hc
  have hfirst := List.head?_dropWhile_not isBlank cs
  rw [Option.mem_def] at hc
  rwa [hc] at hfirst

/-- Trimming finds the text between blanks. -/
theorem trimBlank_append {a cs b : List Char} (ha : Blank a)
    (hfirst : ∀ c ∈ cs.head?, isBlank c = false) (hlast : ∀ c ∈ cs.getLast?, isBlank c = false)
    (hb : Blank b) : trimBlank (a ++ (cs ++ b)) = cs := by
  have hback : Blank b.reverse := fun c hc => hb c (List.mem_reverse.mp hc)
  unfold trimBlank
  rw [List.dropWhile_append_of_pos ha]
  cases cs with
  | nil =>
    rw [List.nil_append, List.dropWhile_eq_nil_iff.mpr hb]
    rfl
  | cons c cs =>
    have hreverse : ∀ c' ∈ (c :: cs).reverse.head?, isBlank c' = false := by
      rw [List.head?_reverse]
      exact hlast
    have hwhole : ((c :: cs) ++ b).dropWhile isBlank = (c :: cs) ++ b := dropWhile_eq_self hfirst
    rw [hwhole, List.reverse_append, List.dropWhile_append_of_pos hback,
      dropWhile_eq_self hreverse, List.reverse_reverse]

theorem Bare.trimBlank_eq {a cs b : List Char} (h : Bare cs) (ha : Blank a) (hb : Blank b) :
    trimBlank (a ++ (cs ++ b)) = cs :=
  trimBlank_append ha h.first h.last hb

theorem blank_takeWhile (cs : List Char) : Blank (cs.takeWhile isBlank) :=
  fun _ hc => List.mem_takeWhile_imp hc

/-- The blanks at the end are taken off what begins with none. -/
theorem dropWhile_eq_append (cs : List Char) : cs.dropWhile isBlank =
    trimBlank cs ++ ((cs.dropWhile isBlank).reverse.takeWhile isBlank).reverse := by
  unfold trimBlank
  rw [← List.reverse_append, List.takeWhile_append_dropWhile, List.reverse_reverse]

/-- Between blanks a text is what trimming leaves of it. -/
theorem exists_trimBlank (cs : List Char) :
    ∃ a b, Blank a ∧ Blank b ∧ cs = a ++ (trimBlank cs ++ b) := by
  have hback : Blank ((cs.dropWhile isBlank).reverse.takeWhile isBlank).reverse :=
    fun c hc => blank_takeWhile _ c (List.mem_reverse.mp hc)
  refine ⟨cs.takeWhile isBlank, _, blank_takeWhile cs, hback, ?_⟩
  rw [← dropWhile_eq_append, List.takeWhile_append_dropWhile]

/-- What trimming leaves of a line is bare. -/
theorem bare_trimBlank {cs : List Char} (h : '\n' ∉ cs) : Bare (trimBlank cs) where
  noFeed := by
    obtain ⟨a, b, _, _, hcs⟩ := exists_trimBlank cs
    intro hmem
    rw [hcs] at h
    exact h (List.mem_append_right _ (List.mem_append_left _ hmem))
  first := by
    intro c hc
    refine first_dropWhile cs c ?_
    rw [dropWhile_eq_append]
    cases htrim : trimBlank cs with
    | nil =>
      rw [htrim] at hc
      cases hc
    | cons _ _ => rwa [htrim] at hc
  last := by
    intro c hc
    unfold trimBlank at hc
    rw [List.getLast?_reverse] at hc
    exact first_dropWhile _ c hc

/-! ## Line ends -/

/-- A line without the carriage return that it ends in, if it does. -/
def strip (line : List Char) : List Char :=
  (dropReturn line.reverse).reverse

theorem strip_concat (line : List Char) : strip (line ++ ['\r']) = line := by
  unfold strip
  rw [List.reverse_append]
  exact List.reverse_reverse line

theorem strip_eq_self {line : List Char} (h : line.getLast? ≠ some '\r') : strip line = line := by
  rw [← List.head?_reverse] at h
  unfold strip dropReturn
  split
  next rest hline =>
    rw [hline] at h
    exact absurd rfl h
  next => exact List.reverse_reverse line

theorem linesFrom_append {line : List Char} (h : '\n' ∉ line) (begun rest : List Char) :
    linesFrom begun (line ++ '\n' :: rest) =
      (dropReturn (line.reverse ++ begun)).reverse :: linesFrom [] rest := by
  induction line generalizing begun with
  | nil => rfl
  | cons c line ih =>
    obtain ⟨hc, hline⟩ := not_or.mp (mt List.mem_cons.mpr h)
    have hnext : linesFrom begun (c :: (line ++ '\n' :: rest)) =
        linesFrom (c :: begun) (line ++ '\n' :: rest) := by
      rw [linesFrom]
      exact fun hfeed => hc hfeed.symm
    rw [List.cons_append, hnext, ih hline, List.reverse_cons, List.append_assoc]
    rfl

/-- A line has no line feed. -/
theorem notMem_linesFrom (begun cs : List Char) (hbegun : '\n' ∉ begun) :
    ∀ line ∈ linesFrom begun cs, '\n' ∉ line := by
  fun_induction linesFrom begun cs with
  | case1 begun hnil => simp
  | case2 begun hnil => simpa using hbegun
  | case3 begun rest ih =>
    refine List.forall_mem_cons.mpr ⟨fun hmem => hbegun ?_, ih (by simp)⟩
    rw [List.mem_reverse] at hmem
    unfold dropReturn at hmem
    split at hmem
    next => exact List.mem_cons_of_mem _ hmem
    next => exact hmem
  | case4 begun c rest hc ih =>
    refine ih fun hmem => ?_
    rcases List.mem_cons.mp hmem with heq | hmem
    · exact hc heq.symm
    · exact hbegun hmem

theorem notMem_lines (cs : List Char) : ∀ line ∈ lines cs, '\n' ∉ line :=
  notMem_linesFrom [] cs (by simp)

namespace Ini

/-- The text of those lines, a line feed behind each. -/
def withFeeds (ls : List (List Char)) : String :=
  String.ofList (ls.flatMap fun line => line ++ ['\n'])

/-- The text of those lines, a carriage return and a line feed behind each. -/
def withReturns (ls : List (List Char)) : String :=
  String.ofList (ls.flatMap fun line => line ++ ['\r', '\n'])

theorem lines_withFeeds {ls : List (List Char)} (h : ∀ line ∈ ls, '\n' ∉ line) :
    lines (withFeeds ls).toList = ls.map strip := by
  unfold withFeeds
  rw [String.toList_ofList]
  induction ls with
  | nil => rfl
  | cons line ls ih =>
    obtain ⟨hline, hrest⟩ := List.forall_mem_cons.mp h
    rw [List.flatMap_cons, List.append_assoc, List.singleton_append]
    unfold lines at ih ⊢
    rw [linesFrom_append hline, ih hrest, List.append_nil]
    rfl

theorem lines_withReturns {ls : List (List Char)} (h : ∀ line ∈ ls, '\n' ∉ line) :
    lines (withReturns ls).toList = ls := by
  have hreturns : withReturns ls = withFeeds (ls.map fun line => line ++ ['\r']) := by
    unfold withReturns withFeeds
    rw [List.flatMap_map]
    simp only [List.append_assoc, List.singleton_append]
  have hfeeds : ∀ line ∈ ls.map fun line => line ++ ['\r'], '\n' ∉ line := by
    intro line hline
    obtain ⟨before, hbefore, rfl⟩ := List.mem_map.mp hline
    rw [List.mem_append, List.mem_singleton, not_or]
    exact ⟨h before hbefore, by decide⟩
  rw [hreturns, lines_withFeeds hfeeds, List.map_map]
  exact List.map_id'' strip_concat ls

/-! ## Documents -/

/-- Sections by name, each with its keys and values. -/
abbrev Document := List (String × List (String × String))

/-- What can be written: names are told apart, and in each section keys are. -/
structure Document.Admissible (d : Document) : Prop where
  names_nodup : (d.map Prod.fst).Nodup
  names : ∀ s ∈ d, Bare s.1.toList
  keys_nodup : ∀ s ∈ d, (s.2.map Prod.fst).Nodup
  keys : ∀ s ∈ d, ∀ kv ∈ s.2, BareKey kv.1.toList
  values : ∀ s ∈ d, ∀ kv ∈ s.2, Bare kv.2.toList

instance (d : Document) : Decidable d.Admissible :=
  decidable_of_iff ((d.map Prod.fst).Nodup ∧ (∀ s ∈ d, Bare s.1.toList) ∧
      (∀ s ∈ d, (s.2.map Prod.fst).Nodup) ∧ (∀ s ∈ d, ∀ kv ∈ s.2, BareKey kv.1.toList) ∧
      ∀ s ∈ d, ∀ kv ∈ s.2, Bare kv.2.toList)
    ⟨fun h => ⟨h.1, h.2.1, h.2.2.1, h.2.2.2.1, h.2.2.2.2⟩,
      fun h => ⟨h.names_nodup, h.names, h.keys_nodup, h.keys, h.values⟩⟩

/-- A header for each section, and behind it an assignment for each of its keys. -/
def Document.items (d : Document) : List Line :=
  d.flatMap fun s =>
    .header s.1.toList :: s.2.map fun kv => .assignment kv.1.toList kv.2.toList

/-- The line is written for that item; what is ignored is an empty line or a comment. -/
inductive Spells : Line → List Char → Prop
  | empty {a : List Char} : Blank a → Spells .ignored a
  | comment {a text : List Char} {c : Char} : Blank a → c = '#' ∨ c = ';' → '\n' ∉ text →
      Spells .ignored (a ++ c :: text)
  | header {a b c d name : List Char} : Blank a → Blank b → Blank c → Blank d →
      Spells (.header name) (a ++ '[' :: (b ++ (name ++ (c ++ ']' :: d))))
  | assignment {a b c d key value : List Char} : Blank a → Blank b → Blank c → Blank d →
      Spells (.assignment key value) (a ++ (key ++ (b ++ '=' :: (c ++ (value ++ d)))))

/-- The lines spell the items in order, with empty lines and comments anywhere. -/
inductive Writes : List Line → List (List Char) → Prop
  | nil : Writes [] []
  | filler {items : List Line} {line : List Char} {ls : List (List Char)} :
      Spells .ignored line → Writes items ls → Writes items (line :: ls)
  | item {item : Line} {items : List Line} {line : List Char} {ls : List (List Char)} :
      Spells item line → Writes items ls → Writes (item :: items) (line :: ls)

/-- An item of which every spelling can be read. -/
inductive Line.Writable : Line → Prop
  | header {name : List Char} : Bare name → Line.Writable (.header name)
  | assignment {key value : List Char} : BareKey key → Bare value →
      Line.Writable (.assignment key value)

theorem Document.Admissible.writable {d : Document} (h : d.Admissible) :
    ∀ item ∈ d.items, item.Writable := by
  intro item hitem
  obtain ⟨s, hs, hmem⟩ := List.mem_flatMap.mp hitem
  rcases List.mem_cons.mp hmem with rfl | hmem
  · exact .header (h.names s hs)
  · obtain ⟨kv, hkv, rfl⟩ := List.mem_map.mp hmem
    exact .assignment (h.keys s hs kv hkv) (h.values s hs kv hkv)

/-! ## What is written is said -/

/-- What lines without the blanks around them say, but for those that say nothing. -/
def said (ls : List (List Char)) : List Line :=
  (ls.map Line.ofTrimmed).filter (· ≠ .ignored)

theorem said_cons_ignored {line : List Char} (h : Line.Of line .ignored) (ls : List (List Char)) :
    said (line :: ls) = said ls := by
  unfold said
  rw [List.map_cons, h.ofTrimmed_eq, List.filter_cons_of_neg (by simp)]

theorem said_cons {line : List Char} {item : Line} (h : Line.Of line item)
    (hitem : item ≠ .ignored) (ls : List (List Char)) : said (line :: ls) = item :: said ls := by
  unfold said
  rw [List.map_cons, h.ofTrimmed_eq, List.filter_cons_of_pos (by simpa using hitem)]

theorem trimBlank_cons {a : List Char} (ha : Blank a) {c : Char} (hc : isBlank c = false)
    (text : List Char) : ∃ rest, trimBlank (a ++ c :: text) = c :: rest := by
  have hsplit := dropWhile_eq_append (a ++ c :: text)
  rw [List.dropWhile_append_of_pos ha,
    List.dropWhile_cons_of_neg (by rw [hc]; exact Bool.false_ne_true)] at hsplit
  cases htrim : trimBlank (a ++ c :: text) with
  | cons c' rest =>
    rw [htrim, List.cons_append] at hsplit
    obtain ⟨rfl, _⟩ := List.cons.inj hsplit
    exact ⟨rest, rfl⟩
  | nil =>
    -- then there would be only blanks
    rw [htrim, List.nil_append] at hsplit
    have hmem : c ∈ ((c :: text).reverse.takeWhile isBlank).reverse := by
      rw [← hsplit]
      exact List.mem_cons_self
    exact absurd (List.mem_reverse.mp hmem) ((blank_takeWhile _).notMem hc)

theorem Spells.of_ignored {line : List Char} (h : Spells .ignored line) :
    Line.Of (trimBlank line) .ignored := by
  cases h with
  | empty ha =>
    have htrim : trimBlank (line ++ ([] ++ [])) = [] :=
      trimBlank_append ha (by simp) (by simp) blank_nil
    rw [List.append_nil, List.append_nil] at htrim
    rw [htrim]
    exact .empty
  | @comment a text c ha hc _ =>
    have hblank : isBlank c = false := by rcases hc with rfl | rfl <;> rfl
    obtain ⟨rest, htrim⟩ := trimBlank_cons ha hblank text
    rw [htrim]
    exact .comment hc

/-- Of an assignment the blanks before the key are taken off, and those behind the value;
if that is empty, all behind the `=`. -/
theorem exists_trimBlank_assignment {a b c d key value : List Char} (ha : Blank a)
    (hc : Blank c) (hd : Blank d) (hkey : BareKey key) (hvalue : Bare value) :
    ∃ rest, trimBlank (a ++ (key ++ (b ++ '=' :: (c ++ (value ++ d))))) =
        (key ++ b) ++ '=' :: rest ∧ trimBlank rest = value := by
  have hfirst : ∀ rest : List Char, ∀ x ∈ (key ++ (b ++ '=' :: rest)).head?, isBlank x = false := by
    intro rest x hx
    rw [List.head?_append_of_ne_nil _ hkey.ne_nil] at hx
    exact hkey.first x hx
  by_cases hnil : value = []
  · subst hnil
    have hlast : ∀ x ∈ (key ++ (b ++ ['='])).getLast?, isBlank x = false := by
      rw [← List.append_assoc, List.getLast?_concat]
      simp [isBlank]
    have htrim := trimBlank_append ha (hfirst []) hlast (hc.append hd)
    simp only [List.append_assoc, List.cons_append, List.nil_append] at htrim
    exact ⟨[], by simpa using htrim, rfl⟩
  · have hlast : ∀ x ∈ (key ++ (b ++ '=' :: (c ++ value))).getLast?, isBlank x = false := by
      intro x hx
      rw [show key ++ (b ++ '=' :: (c ++ value)) = (key ++ (b ++ '=' :: c)) ++ value by simp,
        List.getLast?_append_of_ne_nil _ hnil] at hx
      exact hvalue.last x hx
    have htrim := trimBlank_append ha (hfirst (c ++ value)) hlast hd
    have hrest := hvalue.trimBlank_eq hc blank_nil
    rw [List.append_nil] at hrest
    exact ⟨c ++ value, by simpa using htrim, hrest⟩

theorem Spells.of {item : Line} {line : List Char} (h : Spells item line)
    (hitem : item.Writable) : Line.Of (trimBlank line) item := by
  cases hitem with
  | @header name hname =>
    cases h with
    | @header a b c d _ ha hb hc hd =>
      have htrim : trimBlank (a ++ (('[' :: ((b ++ (name ++ c)) ++ [']'])) ++ d)) =
          '[' :: ((b ++ (name ++ c)) ++ [']']) :=
        trimBlank_append ha (by simp [isBlank])
          (by rw [← List.cons_append, List.getLast?_concat]; simp [isBlank]) hd
      have hof := Line.Of.header (b ++ (name ++ c))
      rw [hname.trimBlank_eq hb hc] at hof
      simp only [List.append_assoc, List.cons_append, List.nil_append] at htrim hof
      rw [htrim]
      exact hof
  | @assignment key value hkey hvalue =>
    cases h with
    | @assignment a b c d _ _ ha hb hc hd =>
      obtain ⟨rest, htrim, hrest⟩ := exists_trimBlank_assignment (b := b) ha hc hd hkey hvalue
      have hbefore : trimBlank (key ++ b) = key := hkey.trimBlank_eq blank_nil hb
      have hequals : '=' ∉ key ++ b := by
        rw [List.mem_append, not_or]
        exact ⟨hkey.noEquals, hb.notMem rfl⟩
      have hplain : Plain ((key ++ b) ++ '=' :: rest) := by
        obtain ⟨x, xs, rfl⟩ := List.exists_cons_of_ne_nil hkey.ne_nil
        obtain ⟨hbracket, hhash, hsemicolon⟩ := hkey.first_ne x rfl
        exact ⟨x, _, rfl, hhash, hsemicolon, hbracket⟩
      have hof := Line.Of.assignment hplain hequals
      rw [hbefore, hrest] at hof
      rwa [htrim]

namespace Writes

variable {items : List Line} {ls : List (List Char)}

/-- Of the lines that spell some items just these are said. -/
theorem said_eq (h : Writes items ls) (hitems : ∀ item ∈ items, item.Writable) :
    said (ls.map trimBlank) = items := by
  induction h with
  | nil => rfl
  | filler hline _ ih => rw [List.map_cons, said_cons_ignored hline.of_ignored, ih hitems]
  | item hline _ ih =>
    obtain ⟨hitem, hrest⟩ := List.forall_mem_cons.mp hitems
    rw [List.map_cons, said_cons (hline.of hitem) (by rintro rfl; cases hitem), ih hrest]

/-- No line feed gets into a line. -/
theorem noFeed (h : Writes items ls) (hitems : ∀ item ∈ items, item.Writable) :
    ∀ line ∈ ls, '\n' ∉ line := by
  induction h with
  | nil => simp
  | filler hline _ ih =>
    refine List.forall_mem_cons.mpr ⟨?_, ih hitems⟩
    cases hline with
    | empty ha => exact ha.notMem rfl
    | comment ha hc htext =>
      rcases hc with rfl | rfl <;> simp [ha.notMem, htext, isBlank]
  | item hline _ ih =>
    obtain ⟨hitem, hrest⟩ := List.forall_mem_cons.mp hitems
    refine List.forall_mem_cons.mpr ⟨?_, ih hrest⟩
    cases hitem with
    | header hname =>
      cases hline with
      | header ha hb hc hd =>
        simp [ha.notMem, hb.notMem, hc.notMem, hd.notMem, hname.noFeed, isBlank]
    | assignment hkey hvalue =>
      cases hline with
      | assignment ha hb hc hd =>
        simp [ha.notMem, hb.notMem, hc.notMem, hd.notMem, hkey.noFeed, hvalue.noFeed, isBlank]

end Writes

/-! ## Returns that lines end in -/

theorem getLast?_append_blank {d : List Char} (hd : Blank d) (cs : List Char)
    (h : cs.getLast? ≠ some '\r') : (cs ++ d).getLast? ≠ some '\r' := by
  rw [List.getLast?_append]
  cases hlast : d.getLast? with
  | none => exact h
  | some c =>
    have hc := hd c (List.mem_of_getLast? hlast)
    rintro ⟨rfl⟩
    cases hc

theorem getLast?_header {d : List Char} (hd : Blank d) (a b c name : List Char) :
    (a ++ '[' :: (b ++ (name ++ (c ++ ']' :: d)))).getLast? ≠ some '\r' := by
  have hsplit : a ++ '[' :: (b ++ (name ++ (c ++ ']' :: d))) =
      ((a ++ '[' :: (b ++ (name ++ c))) ++ [']']) ++ d := by simp
  rw [hsplit]
  refine getLast?_append_blank hd _ ?_
  rw [List.getLast?_concat]
  decide

theorem getLast?_assignment {c d value : List Char} (hc : Blank c) (hd : Blank d)
    (hvalue : value.getLast? ≠ some '\r') (a b key : List Char) :
    (a ++ (key ++ (b ++ '=' :: (c ++ (value ++ d))))).getLast? ≠ some '\r' := by
  have hsplit : a ++ (key ++ (b ++ '=' :: (c ++ (value ++ d)))) =
      ((((a ++ (key ++ b)) ++ ['=']) ++ c) ++ value) ++ d := by simp
  rw [hsplit]
  refine getLast?_append_blank hd _ ?_
  by_cases hnil : value = []
  · rw [hnil, List.append_nil]
    refine getLast?_append_blank hc _ ?_
    rw [List.getLast?_concat]
    decide
  · rwa [List.getLast?_append_of_ne_nil _ hnil]

/-- A comment without the return at its end is a comment. -/
theorem Spells.strip_comment {a text : List Char} {c : Char} (ha : Blank a)
    (hc : c = '#' ∨ c = ';') (htext : '\n' ∉ text) :
    Spells .ignored (strip (a ++ c :: text)) := by
  by_cases hlast : (a ++ c :: text).getLast? = some '\r'
  · rcases List.eq_nil_or_concat text with rfl | ⟨text, x, rfl⟩
    · rw [List.getLast?_concat] at hlast
      rcases hc with rfl | rfl <;> cases hlast
    · rw [List.concat_eq_append] at hlast htext ⊢
      have hline : a ++ c :: (text ++ [x]) = (a ++ c :: text) ++ [x] := by simp
      rw [hline, List.getLast?_concat] at hlast
      cases hlast
      rw [hline, strip_concat]
      exact .comment ha hc fun hmem => htext (List.mem_append_left _ hmem)
  · rw [strip_eq_self hlast]
    exact .comment ha hc htext

/-- No item but a comment or a value can end in a return. -/
theorem Spells.strip {item : Line} {line : List Char} (h : Spells item line)
    (hvalue : ∀ key value, item = .assignment key value → value.getLast? ≠ some '\r') :
    Spells item (strip line) := by
  cases h with
  | empty ha =>
    have hlast : line.getLast? ≠ some '\r' := getLast?_append_blank ha [] (by decide)
    rw [strip_eq_self hlast]
    exact .empty ha
  | comment ha hc htext => exact .strip_comment ha hc htext
  | header ha hb hc hd =>
    rw [strip_eq_self (getLast?_header hd _ _ _ _)]
    exact .header ha hb hc hd
  | assignment ha hb hc hd =>
    rw [strip_eq_self (getLast?_assignment hc hd (hvalue _ _ rfl) _ _ _)]
    exact .assignment ha hb hc hd

theorem Writes.strip {items : List Line} {ls : List (List Char)} (h : Writes items ls)
    (hvalue : ∀ key value, .assignment key value ∈ items → value.getLast? ≠ some '\r') :
    Writes items (ls.map strip) := by
  induction h with
  | nil => exact .nil
  | filler hline _ ih =>
    exact .filler (hline.strip fun _ _ hitem => by cases hitem) (ih hvalue)
  | item hline _ ih =>
    refine .item (hline.strip ?_) (ih ?_)
    · rintro key value rfl
      exact hvalue key value List.mem_cons_self
    · intro key value hmem
      exact hvalue key value (List.mem_cons_of_mem _ hmem)

end Ini

end Chaining

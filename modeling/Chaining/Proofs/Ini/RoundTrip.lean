import Chaining.Proofs.Ini.Contents
import Chaining.Proofs.Ini.Writing

/-!
# What is written is read

A document that is written as a text is read again as it was: no line of the text is at
fault, its headers are the names of the sections, and to each section is assigned what it
has in the document (`readsAs_of_said`). All this depends on the text only by what is said
in it, `said`, and so neither blanks nor comments nor line ends matter.

Conversely a file that has been read is a document that can be written: its names, keys
and values come from trimmed lines (`admissible_contents`). So reading and writing undo
each other (`round_trip`). As ever a text of 2^60 bytes might be refused for want of room.
-/

namespace Chaining.Ini

variable {ls : List (List Char)} {d : Document}

theorem Document.items_cons (s : String × List (String × String)) (d : Document) :
    Document.items (s :: d) = .header s.1.toList ::
      (s.2.map (fun kv => .assignment kv.1.toList kv.2.toList) ++ d.items) :=
  rfl

/-! ## What is said in a text -/

theorem said_append (xs ys : List (List Char)) : said (xs ++ ys) = said xs ++ said ys := by
  unfold said
  rw [List.map_append, List.filter_append]

theorem mem_said {item : Line} :
    item ∈ said ls ↔ ∃ line ∈ ls, Line.Of line item ∧ item ≠ .ignored := by
  unfold said
  simp only [List.mem_filter, List.mem_map, Line.ofTrimmed_eq_iff, decide_eq_true_eq]
  constructor
  · rintro ⟨⟨line, hline, hof⟩, hne⟩
    exact ⟨line, hline, hof, hne⟩
  · rintro ⟨line, hline, hof, hne⟩
    exact ⟨⟨line, hline, hof⟩, hne⟩

theorem headers_eq_said (ls : List (List Char)) :
    headers ls = (said ls).filterMap Line.header? := by
  unfold headers said
  rw [List.filterMap_filter, List.filterMap_map]
  refine List.filterMap_congr fun line _ => ?_
  dsimp only [Function.comp_apply]
  cases Line.ofTrimmed line <;> rfl

theorem headers_of_said (h : said ls = d.items) : headers ls = d.map Prod.fst := by
  rw [headers_eq_said, h]
  clear h
  induction d with
  | nil => rfl
  | cons s d ih =>
    have hnone : (s.2.map fun kv => Line.assignment kv.1.toList kv.2.toList).filterMap
        Line.header? = [] := by
      rw [List.filterMap_map]
      exact List.filterMap_eq_nil_iff.mpr fun _ _ => rfl
    rw [Document.items_cons, List.filterMap_cons_some (b := s.1) (by simp [Line.header?]),
      List.filterMap_append, hnone, ih]
    rfl

/-- No line is at fault: an assignment has a key, and the first thing said is a header. -/
theorem faultless_of_said (hd : d.Admissible) (h : said ls = d.items) : Faultless ls := by
  intro before line after hls e
  have hof := Line.of_ofTrimmed line
  generalize Line.ofTrimmed line = item at hof
  by_cases hignored : item = .ignored
  · subst hignored
    exact not_breaks hof rfl e
  · have hsplit : said before ++ item :: said after = d.items := by
      rw [← h, hls, said_append, said_cons hof hignored]
    have hmem : item ∈ d.items := by
      rw [← hsplit]
      exact List.mem_append_right _ List.mem_cons_self
    cases hd.writable item hmem with
    | header _ => exact not_breaks hof rfl e
    | @assignment key value hkey _ =>
      have hopened : ∃ l ∈ before, l.head? = some '[' := by
        cases d with
        | nil => cases hmem
        | cons s d =>
          rw [Document.items_cons] at hsplit
          cases hbefore : said before with
          | nil =>
            rw [hbefore] at hsplit
            cases hsplit
          | cons first rest =>
            rw [hbefore] at hsplit
            obtain ⟨hfirst, _⟩ := List.cons.inj hsplit
            have hsaid : Line.header s.1.toList ∈ said before := by
              rw [hbefore, hfirst]
              exact List.mem_cons_self
            obtain ⟨l, hl, hheader, _⟩ := mem_said.mp hsaid
            exact ⟨l, hl, hheader.head?_header⟩
      refine not_breaks hof ?_ e
      obtain ⟨l, hl, hhead⟩ := hopened
      rw [fault?, if_neg fun hnone => hnone l hl hhead, if_neg hkey.ne_nil]

/-- What some items set, behind a header with that name, if behind any. -/
def setBy (name? : Option String) : List Line → List Setting
  | [] => []
  | .header name :: rest => setBy (some (String.ofList name)) rest
  | .assignment key value :: rest =>
    (name?.map fun name => ⟨name, String.ofList key, String.ofList value⟩).toList ++
      setBy name? rest
  | _ :: rest => setBy name? rest

theorem governing_concat (before : List (List Char)) (line : List Char) :
    governing (before ++ [line]) = (Line.ofTrimmed line).header?.or (governing before) := by
  unfold governing
  rw [headers_concat, List.getLast?_append]
  cases (Line.ofTrimmed line).header? <;> rfl

/-- Settings depend only on what is said. -/
theorem along_setting?_eq (before ls : List (List Char)) :
    along setting? before ls = setBy (governing before) (said ls) := by
  induction ls generalizing before with
  | nil => rfl
  | cons line ls ih =>
    have hline : said [line] = [Line.ofTrimmed line].filter (· ≠ .ignored) := rfl
    have hsaid : said (line :: ls) = said [line] ++ said ls := said_append [line] ls
    unfold along
    rw [ih, governing_concat, hsaid, hline]
    unfold setting?
    cases Line.ofTrimmed line <;> cases governing before <;> rfl

theorem setBy_assignments (name : String) (es : List (String × String)) (rest : List Line) :
    setBy (some name) (es.map (fun kv => .assignment kv.1.toList kv.2.toList) ++ rest) =
      es.map (fun kv => ⟨name, kv.1, kv.2⟩) ++ setBy (some name) rest := by
  induction es with
  | nil => rfl
  | cons kv es ih =>
    rw [List.map_cons, List.cons_append, setBy, ih, String.ofList_toList, String.ofList_toList]
    rfl

theorem setBy_items (name? : Option String) (d : Document) :
    setBy name? d.items = d.flatMap fun s => s.2.map fun kv => ⟨s.1, kv.1, kv.2⟩ := by
  induction d generalizing name? with
  | nil => rfl
  | cons s d ih =>
    rw [Document.items_cons, setBy, String.ofList_toList, setBy_assignments, ih, List.flatMap_cons]

/-- Of sections with names of their own one has that name. -/
theorem flatMap_of_mem {s : String × List (String × String)} (hnames : (d.map Prod.fst).Nodup)
    (hs : s ∈ d) : (d.flatMap fun t => if t.1 = s.1 then t.2 else []) = s.2 := by
  induction d with
  | nil => cases hs
  | cons first d ih =>
    obtain ⟨hfirst, hrest⟩ := List.nodup_cons.mp hnames
    rw [List.flatMap_cons]
    rcases List.mem_cons.mp hs with rfl | hs
    · have hnone : (d.flatMap fun t => if t.1 = s.1 then t.2 else []) = [] := by
        refine List.flatMap_eq_nil_iff.mpr fun t ht => if_neg fun hname => hfirst ?_
        rw [← hname]
        exact List.mem_map_of_mem ht
      rw [if_pos rfl, hnone, List.append_nil]
    · have hne : first.1 ≠ s.1 := by
        intro hname
        rw [hname] at hfirst
        exact hfirst (List.mem_map_of_mem hs)
      rw [if_neg hne, List.nil_append, ih hrest hs]

/-- To each section is assigned what it has in the document. -/
theorem assigned_of_said (hd : d.Admissible) (h : said ls = d.items)
    {s : String × List (String × String)} (hs : s ∈ d) : assigned ls s.1 = s.2 := by
  have hone : ∀ t : String × List (String × String),
      (t.2.map fun kv => (⟨t.1, kv.1, kv.2⟩ : Setting)).filterMap
        (fun x => if x.name = s.1 then some (x.key, x.value) else none) =
      if t.1 = s.1 then t.2 else [] := by
    intro t
    rw [List.filterMap_map]
    by_cases hname : t.1 = s.1
    · simp [hname]
    · simp [hname]
  unfold assigned settings
  rw [along_setting?_eq, h, setBy_items, List.filterMap_flatMap]
  simp only [hone]
  exact flatMap_of_mem hd.names_nodup hs

/-! ## Files as documents -/

/-- The sections of a file with their keys and values, as its maps list them. -/
def File.contents (f : File) : Document :=
  f.sections.pairs.map fun s => (s.1, s.2.pairs)

/-- The file has those sections with those keys and values, and no others; the order is
that of its maps. -/
structure File.Has (f : File) (d : Document) : Prop where
  names : (f.contents.map Prod.fst).Perm (d.map Prod.fst)
  sections : ∀ s ∈ d, ∃ sec, f.section? s.1 = some sec ∧ sec.pairs.Perm s.2
  get?_eq_some_iff : ∀ name key value, f.get? name key = some value ↔
    ∃ es, (name, es) ∈ d ∧ (key, value) ∈ es

/-- The text is read as that document, unless it has 2^60 bytes or more and a map is
refused the memory for it. -/
def ReadsAs (text : String) (d : Document) : Prop :=
  (∃ f, (File.parse text).result = .ok f ∧ f.Has d) ∨
    2 ^ 60 ≤ text.utf8ByteSize ∧ ∃ error, (File.parse text).result = .error (.storage error)

theorem names_contents (f : File) : f.contents.map Prod.fst = f.sections.pairs.map Prod.fst := by
  unfold File.contents
  rw [List.map_map]
  rfl

theorem Records.has {p : Progress} (h : Records ls p) (hd : d.Admissible)
    (hsaid : said ls = d.items) : (⟨p.sections⟩ : File).Has d where
  names := by
    rw [names_contents]
    have hnodup := h.filled.reachable.nodup_keys
    refine (List.perm_ext_iff_of_nodup hnodup hd.names_nodup).mpr fun name => ?_
    rw [← h.filled.reachable.contains_iff_mem, h.filled.contains_iff, headers_of_said hsaid]
  sections := by
    intro s hs
    have hmem : s.1 ∈ headers ls := by
      rw [headers_of_said hsaid]
      exact List.mem_map_of_mem hs
    have hcontains := (h.filled.contains_iff s.1).mpr hmem
    rw [h.filled.reachable.contains_iff_mem] at hcontains
    obtain ⟨⟨name, sec⟩, hsec, hname⟩ := List.mem_map.mp hcontains
    obtain rfl : name = s.1 := hname
    have hget := h.filled.reachable.get?_eq_some_iff.mpr hsec
    have hholds := h.holds s.1 sec hget
    rw [assigned_of_said hd hsaid hs] at hholds
    exact ⟨sec, hget, hholds.perm (hd.keys_nodup s hs)⟩
  get?_eq_some_iff := by
    intro name key value
    rw [h.get?_eq]
    constructor
    · intro hlast
      by_cases hmem : name ∈ d.map Prod.fst
      · obtain ⟨s, hs, rfl⟩ := List.mem_map.mp hmem
        rw [assigned_of_said hd hsaid hs] at hlast
        exact ⟨s.2, hs, (lastOf_eq_some_iff (hd.keys_nodup s hs)).mp hlast⟩
      · rw [← headers_of_said hsaid] at hmem
        rw [assigned_of_notMem hmem] at hlast
        cases hlast
    · rintro ⟨es, hs, hmem⟩
      rw [assigned_of_said hd hsaid hs]
      exact (lastOf_eq_some_iff (hd.keys_nodup _ hs)).mpr hmem

/-- A text in which a document is said is read as that document. -/
theorem readsAs_of_said {text : String} (hd : d.Admissible)
    (h : said (trimmedLines text) = d.items) : ReadsAs text d := by
  cases hresult : (File.parse text).result with
  | ok f =>
    obtain ⟨p, rfl, _, hrecords⟩ := records_of_parse hresult
    exact Or.inl ⟨_, hresult, hrecords.has hd h⟩
  | error e =>
    rcases fault_of_parse hresult with hfirst | ⟨⟨error, rfl⟩, hlong⟩
    · exact absurd (faultless_of_said hd h) hfirst.not_faultless
    · exact Or.inr ⟨hlong, error, hresult⟩

theorem readsAs_withReturns (hd : d.Admissible) (h : Writes d.items ls) :
    ReadsAs (withReturns ls) d := by
  refine readsAs_of_said hd ?_
  rw [trimmedLines, lines_withReturns (h.noFeed hd.writable)]
  exact h.said_eq hd.writable

/-- With line feeds only, a return at the end of a value would be taken for one of the
line. -/
theorem readsAs_withFeeds (hd : d.Admissible)
    (hvalues : ∀ s ∈ d, ∀ kv ∈ s.2, kv.2.toList.getLast? ≠ some '\r') (h : Writes d.items ls) :
    ReadsAs (withFeeds ls) d := by
  have hitems : ∀ key value, .assignment key value ∈ d.items → value.getLast? ≠ some '\r' := by
    intro key value hitem
    obtain ⟨s, hs, hmem⟩ := List.mem_flatMap.mp hitem
    rcases List.mem_cons.mp hmem with heq | hmem
    · cases heq
    · obtain ⟨kv, hkv, heq⟩ := List.mem_map.mp hmem
      cases heq
      exact hvalues s hs kv hkv
  refine readsAs_of_said hd ?_
  rw [trimmedLines, lines_withFeeds (h.noFeed hd.writable)]
  exact (h.strip hitems).said_eq hd.writable

/-! ## What has been read can be written -/

theorem bare_of_mem_trimmedLines {text : String} {line : List Char}
    (h : line ∈ trimmedLines text) : Bare line := by
  obtain ⟨raw, hraw, rfl⟩ := List.mem_map.mp h
  exact bare_trimBlank (notMem_lines text.toList raw hraw)

namespace Line.Of

variable {line : List Char}

theorem bare_name {name : List Char} (h : Line.Of line (.header name)) (hline : Bare line) :
    Bare name := by
  cases h with
  | header inner =>
    refine bare_trimBlank fun hmem => hline.noFeed ?_
    exact List.mem_cons_of_mem _ (List.mem_append_left _ hmem)

theorem bare_value {key value : List Char} (h : Line.Of line (.assignment key value))
    (hline : Bare line) : Bare value := by
  cases h with
  | assignment _ _ =>
    refine bare_trimBlank fun hmem => hline.noFeed ?_
    exact List.mem_append_right _ (List.mem_cons_of_mem _ hmem)

/-- A key that is not empty begins its line, and so no other kind of line begins like it. -/
theorem bareKey {key value : List Char} (h : Line.Of line (.assignment key value))
    (hline : Bare line) (hkey : key ≠ []) : BareKey key := by
  cases h with
  | @assignment before behind hplain hequals =>
    obtain ⟨a, b, ha, _, hsplit⟩ := exists_trimBlank before
    have hmem : ∀ c ∈ trimBlank before, c ∈ before := by
      intro c hc
      rw [hsplit]
      exact List.mem_append_right _ (List.mem_append_left _ hc)
    have hbare : Bare (trimBlank before) := by
      refine bare_trimBlank fun hfeed => hline.noFeed ?_
      exact List.mem_append_left _ hfeed
    have hnil : a = [] := by
      cases a with
      | nil => rfl
      | cons c a =>
        have hfirst := hline.first c (by rw [hsplit]; rfl)
        exact absurd List.mem_cons_self (ha.notMem hfirst)
    refine ⟨hbare, hkey, fun hc => hequals (hmem _ hc), ?_⟩
    obtain ⟨c, rest, hplain, hhash, hsemicolon, hbracket⟩ := hplain
    intro c' hc'
    have hhead : (before ++ '=' :: behind).head? = some c' := by
      rw [hsplit, hnil, List.nil_append, List.append_assoc, List.head?_append_of_ne_nil _ hkey]
      exact hc'
    rw [hplain] at hhead
    cases hhead
    exact ⟨hbracket, hhash, hsemicolon⟩

end Line.Of

/-- What a section has is assigned to it on some line. -/
theorem Records.exists_assigns {p : Progress} (h : Records ls p) {name key value : String}
    {sec : Section} (hsec : p.sections.get? name = some sec) (hmem : (key, value) ∈ sec.pairs) :
    ∃ before line after, ls = before ++ line :: after ∧ Assigns before line name key value := by
  have hholds := h.holds name sec hsec
  have hget := hholds.toFilled.reachable.get?_eq_some_iff.mpr hmem
  rw [hholds.get?_eq] at hget
  obtain ⟨before, line, after, hls, hassigns, _⟩ := lastOf_assigned_eq_some_iff.mp hget
  exact ⟨before, line, after, hls, hassigns⟩

theorem Faultless.key_ne_nil (h : Faultless ls) {before after : List (List Char)}
    {line : List Char} {name key value : String} (hls : ls = before ++ line :: after)
    (hassigns : Assigns before line name key value) : key.toList ≠ [] := by
  obtain ⟨⟨front, header, back, hbefore, hheader, _⟩, hof⟩ := hassigns
  intro hnil
  rw [hnil] at hof
  have hopened : ∃ l ∈ before, l.head? = some '[' := by
    refine ⟨header, ?_, hheader.head?_header⟩
    rw [hbefore]
    exact List.mem_append_right _ List.mem_cons_self
  exact h before line after hls _ (.emptyKey hof hopened)

/-- What has been read can be written. -/
theorem admissible_contents {text : String} {f : File} (h : (File.parse text).result = .ok f) :
    f.contents.Admissible := by
  obtain ⟨p, rfl, hnone, hrecords⟩ := records_of_parse h
  have hm := hrecords.filled.reachable
  have hsection : ∀ s ∈ (⟨p.sections⟩ : File).contents, ∃ sec,
      p.sections.get? s.1 = some sec ∧ s.2 = sec.pairs := by
    intro s hs
    obtain ⟨⟨name, sec⟩, hmem, rfl⟩ := List.mem_map.mp hs
    exact ⟨sec, hm.get?_eq_some_iff.mpr hmem, rfl⟩
  have hassigns : ∀ s ∈ (⟨p.sections⟩ : File).contents, ∀ kv ∈ s.2,
      BareKey kv.1.toList ∧ Bare kv.2.toList := by
    intro s hs kv hkv
    obtain ⟨sec, hsec, hpairs⟩ := hsection s hs
    rw [hpairs] at hkv
    obtain ⟨before, line, after, hls, hassigns⟩ := hrecords.exists_assigns hsec hkv
    have hline : Bare line := by
      refine @bare_of_mem_trimmedLines text line ?_
      rw [hls]
      exact List.mem_append_right _ List.mem_cons_self
    exact ⟨hassigns.2.bareKey hline (hnone.key_ne_nil hls hassigns), hassigns.2.bare_value hline⟩
  exact {
    names_nodup := by
      rw [names_contents]
      exact hm.nodup_keys
    names := by
      intro s hs
      obtain ⟨sec, hsec, _⟩ := hsection s hs
      have hcontains : p.sections.contains s.1 = true := by
        rw [hm.contains_iff_mem]
        exact List.mem_map_of_mem (hm.get?_eq_some_iff.mp hsec)
      obtain ⟨line, hline, hof⟩ := (hrecords.contains_iff s.1).mp hcontains
      exact hof.bare_name (bare_of_mem_trimmedLines hline)
    keys_nodup := by
      intro s hs
      obtain ⟨sec, hsec, hpairs⟩ := hsection s hs
      rw [hpairs]
      exact (hrecords.holds s.1 sec hsec).toFilled.reachable.nodup_keys
    keys := fun s hs kv hkv => (hassigns s hs kv hkv).1
    values := fun s hs kv hkv => (hassigns s hs kv hkv).2 }

/-- Documents are read as they were written, with carriage returns or, if no value ends in
one, without. Whatever has been read is such a document. -/
theorem round_trip :
    (∀ (d : Document) (ls : List (List Char)), d.Admissible → Writes d.items ls →
        ReadsAs (withReturns ls) d ∧
          ((∀ s ∈ d, ∀ kv ∈ s.2, kv.2.toList.getLast? ≠ some '\r') →
            ReadsAs (withFeeds ls) d)) ∧
      ∀ (text : String) (f : File), (File.parse text).result = .ok f →
        f.contents.Admissible ∧
          ∀ ls, Writes f.contents.items ls → ReadsAs (withReturns ls) f.contents := by
  constructor
  · intro d ls hd h
    exact ⟨readsAs_withReturns hd h, fun hvalues => readsAs_withFeeds hd hvalues h⟩
  · intro text f h
    have hd := admissible_contents h
    exact ⟨hd, fun ls hls => readsAs_withReturns hd hls⟩

/-- A value that ends in a carriage return loses it where lines end in line feeds only. -/
example : (File.parse (withFeeds ["[a]".toList, "k=v\r".toList])).result.toOption.bind
    (fun f => f.get? "a" "k") = some "v" := by decide

/-- Names and values with characters that mean something elsewhere. -/
def tangled : Document :=
  [("a]=b", [("k y", "= ;#"), ("x", "")]), ("", [("k", "v\r")])]

def tangledLines : List (List Char) :=
  ["; k = v".toList, " \t[ a]=b ]".toList, "k y == ;#\t".toList, [], "x =".toList, "[]".toList,
    "k=v\r".toList]

theorem writes_tangled : Writes tangled.items tangledLines := by
  have hnone := blank_nil
  have hspace : Blank [' '] := by decide
  refine .filler (@Spells.comment [] " k = v".toList ';' hnone (by decide) (by decide)) ?_
  refine .item (@Spells.header [' ', '\t'] [' '] [' '] [] _ (by decide) hspace hspace hnone) ?_
  refine .item (@Spells.assignment [] [' '] [] ['\t'] _ _ hnone hspace hnone (by decide)) ?_
  refine .filler (.empty hnone) ?_
  refine .item (@Spells.assignment [] [' '] [] [] _ _ hnone hspace hnone hnone) ?_
  refine .item (@Spells.header [] [] [] [] _ hnone hnone hnone hnone) ?_
  exact .item (@Spells.assignment [] [] [] [] _ _ hnone hnone hnone hnone) .nil

theorem round_trip_tangled :
    ∃ f, (File.parse (withReturns tangledLines)).result = .ok f ∧ f.Has tangled ∧
      f.contents.Admissible := by
  rcases (round_trip.1 tangled tangledLines (by decide) writes_tangled).1 with
    ⟨f, hf, hhas⟩ | ⟨hlong, _⟩
  · exact ⟨f, hf, hhas, (round_trip.2 _ f hf).1⟩
  · exact absurd hlong (by decide)

end Chaining.Ini

/-
# Files that stay as they are

A file keeps its text when another one is written (`Files.read_of_write_other`).  Which file a path
leads to depends on the names of its route, so two files are told apart if their routes end in names
that end in different characters: what is joined to a folder comes last in the route, whatever the
folder (`Files.joined_join_ne`).

The names of a route are steps, apart from the empty one of the root of everything, and so the route of a
file is found again in the name that it is kept under (`Files.route_joined`).  Hence a file that is written
shows up in the folder that its name was joined to, behind the others, and in no other folder
(`Files.namesIn_write`, `Files.nameIn?_join`).
-/
import FormulaEvolution.Files

namespace FormulaEvolution

/-! ## 1. Cutting -/

namespace Text

variable {mark : Char}

/-- There is a part at least. -/
theorem cutAt_ne_nil (cs : List Char) : cutAt mark cs ≠ [] := by
  cases cs with
  | nil => exact List.cons_ne_nil _ _
  | cons c cs =>
    rw [cutAt]
    split
    · exact List.cons_ne_nil _ _
    · cases cutAt mark cs <;> exact List.cons_ne_nil _ _

/-- A text without the mark is one part. -/
theorem cutAt_of_not_mem : ∀ {cs : List Char}, mark ∉ cs → cutAt mark cs = [cs]
  | [], _ => rfl
  | c :: cs, h => by
    have hc : ¬c = mark := fun heq => h (heq ▸ List.mem_cons_self)
    rw [cutAt, if_neg hc, cutAt_of_not_mem fun hmem => h (List.mem_cons_of_mem c hmem)]
    rfl

/-- Cutting at a mark that is there. -/
theorem cutAt_append (ds : List Char) : ∀ cs : List Char,
    cutAt mark (cs ++ mark :: ds) = cutAt mark cs ++ cutAt mark ds
  | [] => by simp [cutAt]
  | c :: cs => by
    rw [List.cons_append, cutAt, cutAt, cutAt_append ds cs]
    split
    · rfl
    · cases hparts : cutAt mark cs with
      | nil => exact absurd hparts (cutAt_ne_nil cs)
      | cons part parts => rfl

/-- No part has the mark. -/
theorem not_mem_of_mem_cutAt : ∀ {cs part : List Char}, part ∈ cutAt mark cs → mark ∉ part
  | [], part, h => by
    obtain rfl := List.mem_singleton.mp h
    exact List.not_mem_nil
  | c :: cs, part, h => by
    rw [cutAt] at h
    split at h
    · rcases List.mem_cons.mp h with rfl | h
      · exact List.not_mem_nil
      · exact not_mem_of_mem_cutAt h
    · next hc =>
      cases hparts : cutAt mark cs with
      | nil => exact absurd hparts (cutAt_ne_nil cs)
      | cons first parts =>
        have hall : ∀ part' ∈ first :: parts, mark ∉ part' := fun part' hpart =>
          not_mem_of_mem_cutAt (hparts ▸ hpart)
        rw [hparts] at h
        rcases List.mem_cons.mp h with rfl | h
        · exact fun hin => (List.mem_cons.mp hin).elim (fun heq => hc heq.symm) (hall first List.mem_cons_self)
        · exact hall part (List.mem_cons_of_mem first h)

end Text

namespace Dictionary

/-- Binding a name adds it behind the others, or leaves the names as they are. -/
theorem keys_bind {β : Type} (d : Dictionary β) (name : String) (value : β) :
    (d.bind name value).map (·.1) =
      if name ∈ d.map (·.1) then d.map (·.1) else d.map (·.1) ++ [name] := by
  induction d with
  | nil => rfl
  | cons p rest ih =>
    obtain ⟨n, v⟩ := p
    rw [Dictionary.bind]
    by_cases hn : n = name
    · subst hn
      simp
    · rw [if_neg hn, List.map_cons, List.map_cons, ih]
      simp only [List.mem_cons, Ne.symm hn, false_or]
      split <;> rfl

end Dictionary

namespace Files

variable {f g : Files} {path other text : String}

/-! ## 2. Routes -/

/-- A name that a step of a path goes on by. -/
structure IsStep (name : String) : Prop where
  nonempty : name ≠ ""
  moves : name ≠ "." ∧ name ≠ ".."
  single : '/' ∉ name.toList

/-- A step goes on to its name. -/
theorem IsStep.goOn {name : String} (h : IsStep name) (gone : List String) :
    Files.goOn gone name = name :: gone := by
  rw [Files.goOn, if_neg (not_or.mpr ⟨h.nonempty, h.moves.1⟩), if_neg h.moves.2]

/-- The names gone along a path, innermost first. -/
def gone (path : String) : List String :=
  ((Text.cutAt '/' path.toList).map String.ofList).foldl Files.goOn []

theorem route_eq (path : String) :
    route path = (if isAbsolute path then [""] else []) ++ (gone path).reverse := by
  rw [route, gone]
  split <;> rfl

/-- A step is no path from the root of everything. -/
theorem IsStep.relative {name : String} (h : IsStep name) : isAbsolute name = false := by
  rw [isAbsolute, beq_eq_false_iff_ne]
  exact fun hhead => h.single (List.mem_of_mem_head? hhead)

/-- The last part of what is joined to a folder is the name; what is in front leads to the folder. -/
theorem cut_join (folder : String) {name : String} (h : IsStep name) :
    ∃ parts, Text.cutAt '/' (join folder name).toList = parts ++ [name.toList] ∧
      (parts.map String.ofList).foldl Files.goOn [] = gone folder := by
  have hname : Text.cutAt '/' name.toList = [name.toList] := Text.cutAt_of_not_mem h.single
  unfold join
  rw [h.relative, Bool.false_or]
  split
  · next hempty =>
    rw [of_decide_eq_true hempty]
    exact ⟨[], hname, rfl⟩
  · split
    · next hslash =>
      rw [beq_iff_eq] at hslash
      obtain ⟨front, hfront⟩ := List.getLast?_eq_some_iff.mp hslash
      refine ⟨Text.cutAt '/' front, ?_, ?_⟩
      · rw [String.toList_append, hfront, List.append_assoc, List.singleton_append,
          Text.cutAt_append, hname]
      · -- The empty part behind the slash leads nowhere.
        rw [gone, hfront, Text.cutAt_append, List.map_append, List.foldl_append]
        rfl
    · refine ⟨Text.cutAt '/' folder.toList, ?_, rfl⟩
      rw [String.toList_append, String.toList_append, List.append_assoc]
      exact (Text.cutAt_append name.toList folder.toList).trans (by rw [hname])

/-- What is joined to a folder is gone last. -/
theorem gone_join (folder : String) {name : String} (h : IsStep name) :
    gone (join folder name) = name :: gone folder := by
  obtain ⟨parts, hparts, hfolder⟩ := cut_join folder h
  rw [gone, hparts, List.map_append, List.foldl_append, hfolder, List.map_singleton,
    String.ofList_toList]
  exact h.goOn _

theorem isAbsolute_join (folder : String) {name : String} (h : IsStep name) :
    isAbsolute (join folder name) = isAbsolute folder := by
  unfold join
  rw [h.relative, Bool.false_or]
  split
  · next hempty =>
    rw [h.relative, of_decide_eq_true hempty]
    rfl
  · next hnonempty =>
    have hchars : folder.toList ≠ [] := fun hnil =>
      hnonempty (decide_eq_true (String.toList_eq_nil_iff.mp hnil))
    obtain ⟨c, cs, hcs⟩ := List.exists_cons_of_ne_nil hchars
    split <;> simp [isAbsolute, hcs]

/-- **What is joined to a folder comes last in the route.** -/
theorem route_join (folder : String) {name : String} (h : IsStep name) :
    route (join folder name) = route folder ++ [name] := by
  rw [route_eq, route_eq, isAbsolute_join folder h, gone_join folder h, List.reverse_cons,
    List.append_assoc]

/-- The text of a route ends as its last name does. -/
theorem getLast?_joined (names : List String) {name : String} (h : name ≠ "") :
    (joined (names ++ [name])).toList.getLast? = name.toList.getLast? := by
  have hne : name.toList ≠ [] := fun hnil => h (String.toList_eq_nil_iff.mp hnil)
  cases names with
  | nil => rw [List.nil_append, joined, String.intercalate_singleton]
  | cons first names =>
    rw [joined, String.intercalate_append_of_ne_nil (List.cons_ne_nil _ _) (List.cons_ne_nil _ _),
      String.intercalate_singleton, String.toList_append, List.getLast?_append,
      List.getLast?_eq_some_getLast hne]
    rfl

/-- **Files whose names end in different characters are different files**, whatever the folders. -/
theorem joined_join_ne {folder folder' name name' : String} (h : IsStep name) (h' : IsStep name')
    (hends : name.toList.getLast? ≠ name'.toList.getLast?) :
    joined (route (join folder name)) ≠ joined (route (join folder' name')) := by
  intro heq
  have hlast := congrArg (fun text : String => text.toList.getLast?) heq
  simp only [route_join folder h, route_join folder' h', getLast?_joined _ h.nonempty,
    getLast?_joined _ h'.nonempty] at hlast
  exact hends hlast

/-- The names that are gone along a path are steps. -/
theorem isStep_of_mem_gone {path name : String} (h : name ∈ gone path) : IsStep name := by
  -- Each part of the path adds a step to steps, or takes one out, or does nothing.
  have hgo : ∀ {parts : List (List Char)} {names : List String}, (∀ part ∈ parts, '/' ∉ part) →
      (∀ n ∈ names, IsStep n) → ∀ n ∈ (parts.map String.ofList).foldl Files.goOn names, IsStep n := by
    intro parts
    induction parts with
    | nil => exact fun _ hnames => hnames
    | cons part parts ih =>
      intro names hparts hnames
      refine ih (fun part' hpart => hparts part' (List.mem_cons_of_mem part hpart)) fun n hn => ?_
      rw [Files.goOn] at hn
      split at hn
      · exact hnames n hn
      · next hstays =>
        split at hn
        · exact hnames n (List.mem_of_mem_drop hn)
        · next hback =>
          rcases List.mem_cons.mp hn with rfl | hn
          · obtain ⟨hempty, hdot⟩ := not_or.mp hstays
            refine ⟨hempty, ⟨hdot, hback⟩, ?_⟩
            rw [String.toList_ofList]
            exact hparts part List.mem_cons_self
          · exact hnames n hn
  exact hgo (fun _ hpart => Text.not_mem_of_mem_cutAt hpart) (fun _ hn => absurd hn List.not_mem_nil)
    name h

/-- Steps that are joined are cut apart again. -/
theorem cut_joined : ∀ {names : List String}, names ≠ [] → (∀ n ∈ names, '/' ∉ n.toList) →
    Text.cutAt '/' (joined names).toList = names.map String.toList
  | [], h, _ => absurd rfl h
  | [name], _, hnames => by
    rw [joined, String.intercalate_singleton]
    exact Text.cutAt_of_not_mem (hnames name List.mem_cons_self)
  | name :: next :: names, _, hnames => by
    have hrest := cut_joined (List.cons_ne_nil next names)
      (fun n hn => hnames n (List.mem_cons_of_mem name hn))
    rw [joined] at hrest
    have hchars : (joined (name :: next :: names)).toList =
        name.toList ++ '/' :: (joined (next :: names)).toList := by
      rw [joined, String.intercalate_cons_cons, String.toList_append, String.toList_append,
        List.append_assoc]
      rfl
    rw [hchars, Text.cutAt_append, Text.cutAt_of_not_mem (hnames name List.mem_cons_self), joined, hrest]
    rfl

/-- Steps that are joined are gone along. -/
theorem foldl_goOn_steps : ∀ {names : List String}, (∀ n ∈ names, IsStep n) → ∀ before : List String,
    names.foldl Files.goOn before = names.reverse ++ before
  | [], _, _ => rfl
  | name :: names, h, before => by
    rw [List.foldl_cons, (h name List.mem_cons_self).goOn,
      foldl_goOn_steps fun n hn => h n (List.mem_cons_of_mem name hn)]
    simp

/-- Steps that are joined are gone along, also from the root of everything. -/
theorem gone_joined {names : List String} (hne : names ≠ []) (h : ∀ n ∈ names, IsStep n) :
    gone (joined names) = names.reverse ∧ gone (joined ("" :: names)) = names.reverse := by
  have hmap : ∀ ns : List String, (ns.map String.toList).map String.ofList = ns := fun ns => by
    rw [List.map_map]
    exact List.map_id'' (fun n => String.ofList_toList) ns
  have hempty : ∀ n ∈ "" :: names, '/' ∉ n.toList := by
    intro n hn
    rcases List.mem_cons.mp hn with rfl | hn
    · exact List.not_mem_nil
    · exact (h n hn).single
  constructor
  · rw [gone, cut_joined hne fun n hn => (h n hn).single, hmap, foldl_goOn_steps h, List.append_nil]
  · rw [gone, cut_joined (List.cons_ne_nil "" names) hempty, hmap]
    exact (foldl_goOn_steps h []).trans (List.append_nil _)

theorem isAbsolute_joined {names : List String} (hne : names ≠ []) (h : ∀ n ∈ names, IsStep n) :
    isAbsolute (joined names) = false ∧ isAbsolute (joined ("" :: names)) = true := by
  obtain ⟨name, rest, rfl⟩ := List.exists_cons_of_ne_nil hne
  have hname := h name List.mem_cons_self
  obtain ⟨c, cs, hcs⟩ := List.exists_cons_of_ne_nil fun hnil =>
    hname.nonempty (String.toList_eq_nil_iff.mp hnil)
  have hc : c ≠ '/' := fun heq => hname.single (hcs ▸ heq ▸ List.mem_cons_self)
  have hhead : ∀ rest, (joined (name :: rest)).toList.head? = some c := by
    intro rest
    cases rest with
    | nil => rw [joined, String.intercalate_singleton, hcs, List.head?_cons]
    | cons next rest =>
      rw [joined, String.intercalate_cons_cons, String.toList_append, String.toList_append, hcs]
      rfl
  constructor
  · rw [isAbsolute, hhead, beq_eq_false_iff_ne]
    exact fun heq => hc (Option.some.inj heq)
  · rw [joined, String.intercalate_cons_cons]
    simp [isAbsolute]

/-- **A route to a name is that of its names joined.** -/
theorem route_joined {path : String} (h : gone path ≠ []) :
    route (joined (route path)) = route path := by
  have hne : (gone path).reverse ≠ [] := fun hnil => h (List.reverse_eq_nil_iff.mp hnil)
  have hsteps : ∀ n ∈ (gone path).reverse, IsStep n := fun n hn =>
    isStep_of_mem_gone (List.mem_reverse.mp hn)
  obtain ⟨hgone, hgone'⟩ := gone_joined hne hsteps
  obtain ⟨habsolute, habsolute'⟩ := isAbsolute_joined hne hsteps
  rw [route_eq path]
  cases isAbsolute path with
  | true =>
    rw [if_pos rfl, List.singleton_append, route_eq, habsolute', hgone', List.reverse_reverse]
    rfl
  | false =>
    rw [if_neg Bool.false_ne_true, List.nil_append, route_eq, habsolute, hgone, List.reverse_reverse]
    rfl

/-! ## 3. Writing -/

/-- Writing binds a text to the route of a path. -/
theorem write_ok (h : f.write path text = .ok g) :
    g = { f with texts := f.texts.bind (joined (route path)) text } := by
  unfold write at h
  split at h
  · exact (Except.ok.inj h).symm
  · cases h

/-- **A file keeps its text when another one is written.** -/
theorem read_of_write_other {kept : String} (h : f.write path text = .ok g)
    (hother : joined (route path) ≠ joined (route other)) (hread : f.read other = .ok kept) :
    g.read other = .ok kept := by
  obtain rfl := write_ok h
  cases htext : f.text? (route other) with
  | none =>
    simp only [read, htext] at hread
    cases hread
  | some before =>
    simp only [read, htext] at hread
    have hafter : Dictionary.value? (f.texts.bind (joined (route path)) text)
        (joined (route other)) = some before := by
      rw [Dictionary.value?_bind, if_neg hother]
      exact htext
    simp only [read, text?, hafter, hread]

/-- Writing needs a folder to write into, and none in the place of the file. -/
theorem write_isOk_iff : (∃ g, f.write path text = .ok g) ↔
    f.hasFolder (route path) = false ∧ f.hasFolder (route path).dropLast = true := by
  simp only [write, Bool.and_eq_true, Bool.not_eq_true']
  split
  · next h => exact ⟨fun _ => h, fun _ => ⟨_, rfl⟩⟩
  · next h => exact iff_of_false (fun ⟨_, hg⟩ => nomatch hg) h

/-- Writing leaves the folders as they are. -/
theorem hasFolder_write (h : f.write path text = .ok g) (route : List String) :
    g.hasFolder route = f.hasFolder route := by
  rw [write_ok h]
  rfl

/-- The name of a file in a folder, by where it is. -/
def nameIn? (folder file : String) : Option String :=
  if (route file).dropLast = route folder then (route file).getLast? else none

theorem namesIn_eq (f : Files) (folder : String) :
    f.namesIn folder = (f.texts.map (·.1)).filterMap (nameIn? folder) := by
  rw [List.filterMap_map]
  rfl

/-- A file that is written comes behind the others in its folder, unless it was there. -/
theorem namesIn_write (folder : String) (h : f.write path text = .ok g) :
    g.namesIn folder = if joined (route path) ∈ f.texts.map (·.1) then f.namesIn folder
      else f.namesIn folder ++ (nameIn? folder (joined (route path))).toList := by
  rw [namesIn_eq, namesIn_eq, write_ok h]
  simp only [Dictionary.keys_bind]
  split
  · rfl
  · rw [List.filterMap_append, List.filterMap_cons]
    cases nameIn? folder (joined (route path)) <;> rfl

/-- The name of what is joined to a folder, seen from another one. -/
theorem nameIn?_join (folder folder' : String) {name : String} (h : IsStep name) :
    nameIn? folder (joined (route (join folder' name))) =
      if route folder' = route folder then some name else none := by
  have hgone : gone (join folder' name) ≠ [] := by
    rw [gone_join folder' h]
    exact List.cons_ne_nil name _
  rw [nameIn?, route_joined hgone, route_join folder' h, List.dropLast_concat, List.getLast?_concat]

/-- **A file that is written into a folder comes behind the others**, if its name is new there. -/
theorem namesIn_write_new {folder name : String} (hname : IsStep name)
    (h : f.write (join folder name) text = .ok g) (hnew : name ∉ f.namesIn folder) :
    g.namesIn folder = f.namesIn folder ++ [name] := by
  have hseen : nameIn? folder (joined (route (join folder name))) = some name := by
    rw [nameIn?_join folder folder hname, if_pos rfl]
  have hkey : joined (route (join folder name)) ∉ f.texts.map (·.1) := by
    intro hkey
    refine hnew ?_
    rw [namesIn_eq]
    exact List.mem_filterMap.mpr ⟨_, hkey, hseen⟩
  rw [namesIn_write folder h, if_neg hkey, hseen]
  rfl

/-- **A file that is written into another folder is not seen.** -/
theorem namesIn_write_elsewhere {folder folder' name : String} (hname : IsStep name)
    (h : f.write (join folder' name) text = .ok g) (hne : route folder' ≠ route folder) :
    g.namesIn folder = f.namesIn folder := by
  rw [namesIn_write folder h, nameIn?_join folder folder' hname, if_neg hne]
  split
  · rfl
  · exact List.append_nil _

/-! ## 4. Making folders -/

theorem hasFolder_grown {f : Files} {r : List String} (here : String) (h : f.hasFolder r = true) :
    Files.hasFolder { f with folders := f.folders ++ [here] } r = true := by
  simp only [hasFolder, Bool.or_eq_true, decide_eq_true_eq, List.contains_eq_mem, List.mem_append] at h ⊢
  exact h.imp_right .inl

/-- **After folders have been made along a route, each place on it is a folder**; those that were there
still are, and no text has changed. -/
theorem makeAlong_ok : ∀ {rest done : List String} {f : Files},
    makeAlong path done rest f = .ok g → f.hasFolder done = true →
      (∀ r, f.hasFolder r = true → g.hasFolder r = true) ∧
      (∀ n, g.hasFolder (done ++ rest.take n) = true) ∧ g.texts = f.texts
  | [], done, f, h, hdone => by
    cases h
    refine ⟨fun _ hr => hr, fun n => ?_, rfl⟩
    rwa [List.take_nil, List.append_nil]
  | name :: rest, done, f, h, hdone => by
    -- What is left to make starts from this place, which is a folder by now.
    have hgoes : ∀ {f' : Files}, makeAlong path (done ++ [name]) rest f' = .ok g →
        f'.hasFolder (done ++ [name]) = true → (∀ r, f.hasFolder r = true → f'.hasFolder r = true) →
        f'.texts = f.texts → (∀ r, f.hasFolder r = true → g.hasFolder r = true) ∧
          (∀ n, g.hasFolder (done ++ (name :: rest).take n) = true) ∧ g.texts = f.texts := by
      intro f' h' hhere hgrown htexts
      obtain ⟨hkept, halong, hsame⟩ := makeAlong_ok h' hhere
      refine ⟨fun r hr => hkept r (hgrown r hr), fun n => ?_, hsame.trans htexts⟩
      cases n with
      | zero =>
        rw [List.take_zero, List.append_nil]
        exact hkept done (hgrown done hdone)
      | succ n =>
        rw [List.take_succ_cons, List.append_cons]
        exact halong n
    simp only [makeAlong] at h
    split at h
    · next hhere => exact hgoes h hhere (fun _ hr => hr) rfl
    · split at h
      · split at h <;> cases h
      · refine hgoes h ?_ (fun _ hr => hasFolder_grown _ hr) rfl
        simp [hasFolder]

/-- **A folder that is made is there, with those that it lies in.** -/
theorem makeFolder_ok (h : f.makeFolder path = .ok g) :
    (∀ r, f.hasFolder r = true → g.hasFolder r = true) ∧
      (∀ n, g.hasFolder ((route path).take n) = true) ∧ g.texts = f.texts := by
  unfold makeFolder at h
  split at h
  · cases h
  · exact makeAlong_ok h rfl

end Files
end FormulaEvolution

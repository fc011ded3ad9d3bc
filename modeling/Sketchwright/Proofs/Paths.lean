import Mathlib.Data.List.Basic
import Sketchwright.Files
import Sketchwright.Proofs.Outcome

/-! Paths and the places that they lead to. Every place has a path of its own, so that what is put
there is found there, and writing a file changes no other one. -/

namespace Sketchwright.Files

section Places

/-- The name of a file or of a directory. -/
structure IsName (name : String) : Prop where
  ne_empty : name ≠ ""
  ne_here : name ≠ "."
  ne_above : name ≠ ".."
  slash : '/' ∉ name.toList

/-- The places that paths lead to: below the root, or below the working directory
and what is above it. -/
inductive IsPlace : List String → Prop
  | root {below} (hbelow : ∀ name ∈ below, IsName name) : IsPlace ("/" :: below)
  | working {below} (up : Nat) (hbelow : ∀ name ∈ below, IsName name) :
      IsPlace (List.replicate up ".." ++ below)

variable {here below : List String} {name path : String}

theorem not_mem_of_mem_splitOn {cs part : List Char} (h : part ∈ cs.splitOn '/') : '/' ∉ part := by
  induction cs generalizing part with
  | nil =>
    simp at h
    simp [h]
  | cons c cs ih =>
    rw [List.splitOn_cons_eq_if_modifyHead] at h
    obtain ⟨first, rest, hsplit⟩ := List.exists_cons_of_ne_nil (List.splitOn_ne_nil '/' cs)
    rw [hsplit] at ih h
    split at h
    · rcases List.mem_cons.mp h with rfl | h
      · exact List.not_mem_nil
      · exact ih h
    · next hc =>
      rw [List.modifyHead_cons] at h
      rcases List.mem_cons.mp h with rfl | h
      · have hfirst := ih List.mem_cons_self
        have hne : '/' ≠ c := fun heq => hc (beq_iff_eq.mpr heq.symm)
        simp [hfirst, hne]
      · exact ih (List.mem_cons_of_mem _ h)

theorem slash_of_mem_names (h : name ∈ names path) : '/' ∉ name.toList := by
  obtain ⟨part, hpart, rfl⟩ := List.mem_map.mp h
  simpa using not_mem_of_mem_splitOn hpart

theorem names_intercalate {parts : List String} (hparts : parts ≠ [])
    (h : ∀ part ∈ parts, '/' ∉ part.toList) :
    names ("/".intercalate parts) = parts := by
  have hsplit : (['/'].intercalate (parts.map String.toList)).splitOn '/' =
      parts.map String.toList :=
    List.splitOn_intercalate '/' (by simpa using h) (by simpa using hparts)
  have htext : ("/".intercalate parts).toList = ['/'].intercalate (parts.map String.toList) :=
    String.toList_intercalate
  rw [names, htext, hsplit, List.map_map]
  simp

theorem names_root (path : String) : names ("/" ++ path) = "" :: names path := by
  simp [names, List.splitOn_cons_eq_if_modifyHead]

theorem isAbsolute_root (path : String) : isAbsolute ("/" ++ path) = true := by
  simp [isAbsolute]

/-- A path that starts with a name does not start at the root. -/
theorem isAbsolute_intercalate {parts : List String}
    (h : ∀ part ∈ parts, part ≠ "" ∧ '/' ∉ part.toList) :
    isAbsolute ("/".intercalate parts) = false := by
  cases parts with
  | nil => rfl
  | cons part parts =>
    obtain ⟨hne, hslash⟩ := h part List.mem_cons_self
    obtain ⟨c, cs, hcs⟩ := List.exists_cons_of_ne_nil (mt String.toList_eq_nil_iff.mp hne)
    have hc : c ≠ '/' := by
      rintro rfl
      simp [hcs] at hslash
    cases parts with
    | nil => simp [isAbsolute, hcs, hc]
    | cons next parts => simp [isAbsolute, String.toList_intercalate, hcs, hc]

theorem IsName.step (h : IsName name) (here : List String) : step here name = here ++ [name] := by
  simp [Files.step, h.ne_empty, h.ne_here, h.ne_above]

theorem foldl_step (h : ∀ name ∈ below, IsName name) (here : List String) :
    below.foldl step here = here ++ below := by
  induction below generalizing here with
  | nil => simp
  | cons name below ih =>
    obtain ⟨hname, hbelow⟩ := List.forall_mem_cons.mp h
    rw [List.foldl_cons, hname.step, ih hbelow, List.append_assoc, List.singleton_append]

theorem above_replicate (up : Nat) :
    above (List.replicate up "..") = List.replicate (up + 1) ".." := by
  cases up with
  | zero => rfl
  | succ up => simp [above, List.getLast?_replicate, List.replicate_succ']

theorem foldl_step_up (count up : Nat) :
    (List.replicate count "..").foldl step (List.replicate up "..") =
      List.replicate (up + count) ".." := by
  induction count generalizing up with
  | zero => simp
  | succ count ih =>
    have hstep : step (List.replicate up "..") ".." = List.replicate (up + 1) ".." := by
      simp [step, above_replicate]
    rw [List.replicate_succ, List.foldl_cons, hstep, ih, Nat.add_right_comm, Nat.add_assoc]

theorem IsName.snoc (h : IsName name) (hbelow : ∀ name ∈ below, IsName name) :
    ∀ other ∈ below ++ [name], IsName other :=
  List.forall_mem_append.mpr ⟨hbelow, List.forall_mem_singleton.mpr h⟩

/-- What is above a place is a place. -/
theorem IsPlace.above (h : IsPlace here) : IsPlace (above here) := by
  -- a name at the end is dropped, wherever the names start
  have hdrop : ∀ {base below : List String}, (∀ name ∈ below, IsName name) → below ≠ [] →
      Files.above (base ++ below) = base ++ below.dropLast := by
    intro base below hbelow hne
    obtain ⟨front, name, rfl⟩ := (List.eq_nil_or_concat below).resolve_left hne
    have hname := hbelow name (by simp)
    have hroot : name ≠ "/" := by
      rintro rfl
      exact hname.slash (by decide)
    simp only [List.concat_eq_append, ← List.append_assoc, Files.above, List.getLast?_append,
      List.getLast?_singleton, Option.some_or]
    split
    · next hnone => simp at hnone
    · next hlast => exact absurd (Option.some.inj hlast) hname.ne_above
    · next hlast => exact absurd (Option.some.inj hlast) hroot
    · simp
  have hkept : ∀ {below : List String}, (∀ name ∈ below, IsName name) →
      ∀ name ∈ below.dropLast, IsName name :=
    fun hbelow name hname => hbelow name ((List.dropLast_sublist _).subset hname)
  cases h with
  | @root below hbelow =>
    by_cases hnil : below = []
    · subst hnil
      exact .root (List.forall_mem_nil _)
    · rw [← List.singleton_append, hdrop hbelow hnil]
      exact .root (hkept hbelow)
  | @working below up hbelow =>
    by_cases hnil : below = []
    · subst hnil
      have hup : IsPlace (List.replicate (up + 1) ".." ++ []) :=
        .working (up + 1) (List.forall_mem_nil _)
      rw [List.append_nil] at hup
      rwa [List.append_nil, above_replicate]
    · rw [hdrop hbelow hnil]
      exact .working up (hkept hbelow)

theorem IsPlace.step (h : IsPlace here) (hname : '/' ∉ name.toList) : IsPlace (step here name) := by
  by_cases hstay : name = "" ∨ name = "."
  · rwa [Files.step, if_pos hstay]
  by_cases hup : name = ".."
  · rw [Files.step, if_neg hstay, if_pos hup]
    exact h.above
  have hisName : IsName name :=
    ⟨fun heq => hstay (.inl heq), fun heq => hstay (.inr heq), hup, hname⟩
  rw [hisName.step]
  cases h with
  | root hbelow => exact .root (hisName.snoc hbelow)
  | working up hbelow =>
    rw [List.append_assoc]
    exact .working up (hisName.snoc hbelow)

theorem isPlace_foldl {way : List String} (hway : ∀ name ∈ way, '/' ∉ name.toList)
    (h : IsPlace here) :
    IsPlace (way.foldl step here) := by
  induction way generalizing here with
  | nil => exact h
  | cons name way ih =>
    obtain ⟨hname, hway⟩ := List.forall_mem_cons.mp hway
    exact ih hway (h.step hname)

theorem isPlace_place (path : String) : IsPlace (place path) := by
  apply isPlace_foldl fun name hname => slash_of_mem_names hname
  unfold origin
  split
  · exact .root (List.forall_mem_nil _)
  · exact .working 0 (List.forall_mem_nil _)

/-- The path of a place leads there. -/
theorem IsPlace.place_spelling (h : IsPlace here) : place (spelling here) = here := by
  cases h with
  | @root below hbelow =>
    have hnames : (names ("/".intercalate below)).foldl Files.step ["/"] = "/" :: below := by
      by_cases hnil : below = []
      · subst hnil
        rfl
      · rw [names_intercalate hnil fun name hname => (hbelow name hname).slash, foldl_step hbelow]
        rfl
    rw [spelling, place, origin, if_pos (isAbsolute_root _), names_root, List.foldl_cons]
    exact hnames
  | @working below up hbelow =>
    have hparts : ∀ part ∈ List.replicate up ".." ++ below, part ≠ "" ∧ '/' ∉ part.toList := by
      intro part hpart
      rcases List.mem_append.mp hpart with hpart | hpart
      · rw [List.eq_of_mem_replicate hpart]
        decide
      · exact ⟨(hbelow part hpart).ne_empty, (hbelow part hpart).slash⟩
    have hspelling : spelling (List.replicate up ".." ++ below) =
        "/".intercalate (List.replicate up ".." ++ below) := by
      unfold spelling
      split
      · next heq =>
        have hroot := (hparts "/" (heq ▸ List.mem_cons_self)).2
        exact absurd hroot (by decide)
      · rfl
    rw [hspelling, place, origin, isAbsolute_intercalate hparts, if_neg Bool.false_ne_true]
    by_cases hnil : List.replicate up ".." ++ below = []
    · rw [hnil]
      rfl
    · rw [names_intercalate hnil fun part hpart => (hparts part hpart).2, List.foldl_append]
      have hup := foldl_step_up up 0
      rw [List.replicate_zero, Nat.zero_add] at hup
      rw [hup, foldl_step hbelow]

end Places

section Contents

variable {α : Type} {files : Files α} {here way : List String} {content : α}

theorem places_put (hhere : IsPlace here) : (files.put here content).map (place ·.1) =
    files.map (place ·.1) ++ if (files.file? here).isSome then [] else [here] := by
  unfold put
  split
  · rw [List.map_map, List.append_nil]
    apply List.map_congr_left
    intro entry _
    rw [Function.comp_apply, apply_ite Prod.fst, ite_self]
  · rw [List.map_append, List.map_singleton, hhere.place_spelling]

/-- What is put at a place is there, and everything else stays. -/
theorem file?_put (hhere : IsPlace here) (content : α) (way : List String) :
    (files.put here content).file? way = if way = here then some content else files.file? way := by
  unfold put
  split
  · next hpresent =>
    have hsame : (fun entry : String × α => place entry.1 == way) ∘
        (fun entry => if place entry.1 == here then (entry.1, content) else entry) =
          fun entry => place entry.1 == way := by
      funext entry
      rw [Function.comp_apply, apply_ite Prod.fst, ite_self]
    rw [file?, List.find?_map, hsame, file?]
    cases hfind : files.find? (place ·.1 == way) with
    | none =>
      have hne : way ≠ here := by
        rintro rfl
        simp [file?, hfind] at hpresent
      simp [hne]
    | some entry =>
      have hplace : place entry.1 = way := by simpa using List.find?_some hfind
      by_cases hway : way = here
      · simp [hplace, hway]
      · simp [hplace, hway]
  · next habsent =>
    have hnone : files.file? here = none := by simpa using habsent
    have hlast : [(spelling here, content)].find? (place ·.1 == way) =
        if way = here then some (spelling here, content) else none := by
      by_cases hway : way = here
      · simp [hhere.place_spelling, hway]
      · simp [hhere.place_spelling, hway, Ne.symm hway]
    rw [file?, List.find?_append, hlast, file?]
    by_cases hway : way = here
    · subst hway
      have hfind : files.find? (place ·.1 == way) = none := by simpa [file?] using hnone
      simp [hfind]
    · simp [hway]

theorem isDirectory_eq (files : Files α) (way : List String) : files.isDirectory way =
    (way.all (fun name => name == "/" || name == "..") ||
      (files.map (place ·.1)).any fun there => way.isPrefixOf there && there != way) := by
  rw [isDirectory, List.any_map]
  rfl

/-- Directories stay when something is put somewhere, and its place does not become one. -/
theorem isDirectory_put (hhere : IsPlace here) (content : α) (h : files.isDirectory way = true) :
    (files.put here content).isDirectory way = true := by
  rw [isDirectory_eq, places_put hhere, List.any_append]
  rw [isDirectory_eq] at h
  rcases Bool.or_eq_true_iff.mp h with h | h <;> simp [h]

theorem isDirectory_put_here (hhere : IsPlace here) (content : α)
    (h : files.isDirectory here = false) :
    (files.put here content).isDirectory here = false := by
  rw [isDirectory_eq, Bool.or_eq_false_iff] at h
  rw [isDirectory_eq, places_put hhere, List.any_append, h.1, h.2]
  split <;> simp

theorem walk_eq {there : List String} (h : files.walk here way = .ok there) :
    there = way.foldl step here := by
  induction way generalizing here with
  | nil => exact (Except.ok.inj h).symm
  | cons name way ih =>
    rw [walk] at h
    split at h
    · exact ih h
    · cases h

theorem walk_put {place there : List String} (hplace : IsPlace place) (content : α)
    (h : files.walk here way = .ok there) :
    (files.put place content).walk here way = .ok there := by
  induction way generalizing here with
  | nil => exact h
  | cons name way ih =>
    rw [walk] at h ⊢
    split at h
    · next hdirectory =>
      rw [if_pos (isDirectory_put hplace content hdirectory)]
      exact ih h
    · cases h

variable {path : String} {files' : Files α}

/-- A path with a name at its end is written where it is read. -/
theorem write_eq_ok (h : files.write path content = .ok files') :
    path.isEmpty = false ∧
    files.walk (origin path) (names path) = .ok (place path) ∧
      files.isDirectory (place path) = false ∧
      files' = files.put (place path) content := by
  unfold write at h
  simp only [Outcome.ite_eq_ok, Outcome.bind_eq_ok, Outcome.throw_ne_ok, Outcome.pure_eq_ok,
    and_false, false_and, exists_false, false_or] at h
  obtain ⟨hpath, _, there, hwalk, hdirectory, rfl⟩ := h
  obtain rfl := walk_eq hwalk
  exact ⟨Bool.eq_false_iff.mpr hpath, hwalk, Bool.eq_false_iff.mpr hdirectory, rfl⟩

/-- Writing a file changes this file only. -/
theorem file?_write (h : files.write path content = .ok files') (way : List String) :
    files'.file? way = if way = place path then some content else files.file? way := by
  obtain ⟨_, _, _, rfl⟩ := write_eq_ok h
  exact file?_put (isPlace_place path) content way

/-- What is written is read again. -/
theorem read_write (h : files.write path content = .ok files') :
    files'.read path = .ok content := by
  obtain ⟨hpath, hwalk, hdirectory, rfl⟩ := write_eq_ok h
  have hplace := isPlace_place path
  have hfile : (files.put (place path) content).file? (place path) = some content := by
    rw [file?_put hplace, if_pos rfl]
  unfold read
  rw [hpath, walk_put hplace content hwalk]
  simp [isDirectory_put_here hplace content hdirectory, hfile]

end Contents

end Sketchwright.Files

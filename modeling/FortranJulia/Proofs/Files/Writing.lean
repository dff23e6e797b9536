import FortranJulia.Files.Artifact

/-!
Writing the files of a conversion. Two files are written whose places come from different parts of a
destination, the name of the source and the name of the support file, and nobody compares the two: the
program survives unless both have one path, and then the support file stands in its place.
-/

namespace FortranJulia

set_option autoImplicit false

/-! ## Files by their paths -/

/-- A file system in which every directory can be made and every file written: contents by paths. -/
structure Files where
  content : String → Option String

namespace Files

def put (f : Files) (path text : String) : Files :=
  ⟨fun p => if p = path then some text else f.content p⟩

@[simp] theorem content_put (f : Files) (path text p : String) :
    (f.put path text).content p = if p = path then some text else f.content p := rfl

instance : Host (StateM Files) where
  read path := do
    return ((← get).content path).elim (.error ⟨.opening, path, .notFound⟩) .ok
  isMissing path := do return ((← get).content path).isNone
  write path text := do
    modify (·.put path text)
    return .ok ()
  makeDirectories _ := return .ok ()
  getVariable _ := return ""
  runMark := return ⟨"", ""⟩

end Files

/-- Files that can all be written are written in order, a later one over an earlier one of its path. -/
theorem writeFiles_run (files : List (String × String)) : ∀ (done : List String) (f : Files),
    (writeFiles (m := StateM Files) done files).run f =
      ({ paths := done.reverse ++ files.map (·.1) }, files.foldl (fun f e => f.put e.1 e.2) f) := by
  induction files with
  | nil =>
    intro done f
    rw [List.map_nil, List.append_nil]
    rfl
  | cons file files ih =>
    intro done f
    have hstep : (writeFiles (m := StateM Files) done (file :: files)).run f =
        (writeFiles (m := StateM Files) (file.1 :: done) files).run (f.put file.1 file.2) := rfl
    rw [hstep, ih, List.reverse_cons, List.append_assoc]
    rfl

theorem Conversion.write_run (r : Conversion) (source : String) (d : Destination) (f : Files) :
    (r.write (m := StateM Files) source d).run f =
      ({ paths := [d.programPath source, d.supportPath source] },
        (f.put (d.programPath source) r.program).put (d.supportPath source) r.support) :=
  writeFiles_run [(d.programPath source, r.program), (d.supportPath source, r.support)] [] f

/-! ## Paths in one directory -/

namespace Path

/-- The name is one element of a path and stands for itself. -/
structure Plain (name : String) : Prop where
  single : '/' ∉ name.toList
  kept : name.toList ∉ [[], ['.'], ['.', '.']]

theorem split_single {cs : List Char} (h : '/' ∉ cs) : split cs = [cs] := by
  induction cs with
  | nil => rfl
  | cons c cs ih =>
    have hc : ¬ (c == '/') = true := fun hc => h (by simp [eq_of_beq hc])
    rw [split, if_neg hc, ih fun hcs => h (List.mem_cons_of_mem _ hcs)]

theorem split_ne_nil (cs : List Char) : split cs ≠ [] := by
  fun_cases split cs <;> simp

theorem split_append (cs ds : List Char) : split (cs ++ '/' :: ds) = split cs ++ split ds := by
  induction cs with
  | nil => rfl
  | cons c cs ih =>
    rw [List.cons_append, split, split, ih]
    split
    · rfl
    · obtain ⟨p, ps, hsplit⟩ := List.exists_cons_of_ne_nil (split_ne_nil cs)
      rw [hsplit]
      rfl

theorem push_plain {name : String} (h : Plain name) (rooted : Bool) (stack : List (List Char)) :
    push rooted stack name.toList = name.toList :: stack := by
  have hkept := h.kept
  simp only [List.mem_cons, List.not_mem_nil, or_false, not_or] at hkept
  simp [push, hkept]

/-- The last part can be told from what parts are joined to. -/
theorem joined_last (parts : List (List Char)) {a b : List Char}
    (h : joined (parts ++ [a]) = joined (parts ++ [b])) : a = b := by
  induction parts with
  | nil => exact h
  | cons p parts ih =>
    have hcons : ∀ c, joined (p :: parts ++ [c]) = p ++ '/' :: joined (parts ++ [c]) := by
      intro c
      cases parts <;> rfl
    rw [hcons, hcons] at h
    exact ih (List.cons_inj_right _ |>.1 (List.append_cancel_left h))

/-- What is left of a path whose last part is a plain name. -/
theorem cleanChars_plain {cs : List Char} {parts : List (List Char)} {rooted : Bool} {name : String}
    (h : Plain name) (hparts : split cs = parts ++ [name.toList])
    (hrooted : (cs.head? == some '/') = rooted) :
    cleanChars cs = (if rooted then ['/'] else []) ++
      joined ((parts.foldl (push rooted) []).reverse ++ [name.toList]) := by
  have hkept : name.toList ≠ [] := fun hnil => h.kept (by simp [hnil])
  have hbody : joined ((parts.foldl (push rooted) []).reverse ++ [name.toList]) ≠ [] := by
    cases (parts.foldl (push rooted) []).reverse with
    | nil => exact hkept
    | cons p ps => cases ps <;> simp [joined]
  rw [cleanChars, hrooted, hparts, List.foldl_append]
  simp only [List.foldl_cons, List.foldl_nil, push_plain h, List.reverse_cons]
  cases rooted with
  | true => rfl
  | false => simp [hbody]

theorem join_nothing {name : String} (h : Plain name) : join "" name = name := by
  have hroot : (name.toList.head? == some '/') = false := by
    rw [beq_eq_false_iff_ne]
    exact fun hhead => h.single (List.mem_of_head? hhead)
  have hname : name ≠ "" := fun hname => h.kept (by simp [hname])
  have hjoin : join "" name = clean name := by
    unfold join
    split <;> simp_all
  have hparts : split name.toList = [] ++ [name.toList] := split_single h.single
  rw [hjoin, clean, cleanChars_plain h hparts hroot]
  exact String.ofList_toList

/-- A plain name ends the path of its file, and what the directory says stands before it. -/
theorem join_directory {directory name : String} {rooted : Bool} (hdirectory : directory ≠ "")
    (h : Plain name) (hrooted : (directory.toList.head? == some '/') = rooted) :
    join directory name = String.ofList ((if rooted then ['/'] else []) ++
      joined (((split directory.toList).foldl (push rooted) []).reverse ++ [name.toList])) := by
  have hname : name ≠ "" := fun hname => h.kept (by simp [hname])
  have hjoin : join directory name = clean (directory ++ "/" ++ name) := by
    unfold join
    split <;> simp_all
  have hlist : (directory ++ "/" ++ name).toList = directory.toList ++ '/' :: name.toList := by
    simp [String.toList_append]
  have hhead : (directory.toList ++ '/' :: name.toList).head? = directory.toList.head? := by
    obtain ⟨c, cs, hcs⟩ := List.exists_cons_of_ne_nil
      fun hnil => hdirectory (String.toList_eq_nil_iff.1 hnil)
    rw [hcs]
    rfl
  rw [hjoin, clean, hlist, cleanChars_plain h (by rw [split_append, split_single h.single])
    (by rw [hhead, hrooted])]

/-- Plain names make one path in a directory if they are one name. -/
theorem join_plain_iff (directory : String) {a b : String} (ha : Plain a) (hb : Plain b) :
    join directory a = join directory b ↔ a = b := by
  refine ⟨fun h => ?_, fun h => h ▸ rfl⟩
  by_cases hdirectory : directory = ""
  · rwa [hdirectory, join_nothing ha, join_nothing hb] at h
  · rw [join_directory hdirectory ha rfl, join_directory hdirectory hb rfl] at h
    exact String.toList_inj.1 (joined_last _ (List.append_cancel_left (String.ofList_injective h)))

end Path

/-! ## Main statements -/

/-- After the files of a conversion are written, the support file is there and no third file has
changed; the program is there if its path is not that of the support file, or both have one text. -/
theorem artifacts_written (r : Conversion) (source : String) (d : Destination) (files : Files) :
    ∃ after, (r.write (m := StateM Files) source d).run files =
        ({ paths := [d.programPath source, d.supportPath source] }, after) ∧
      after.content (d.supportPath source) = some r.support ∧
      (∀ p, p ≠ d.programPath source → p ≠ d.supportPath source → after.content p = files.content p) ∧
      (after.content (d.programPath source) = some r.program ↔
        d.programPath source ≠ d.supportPath source ∨ r.program = r.support) := by
  refine ⟨_, r.write_run source d files, ?_, ?_, ?_⟩
  · simp
  · intro p hprogram hsupport
    simp [hprogram, hsupport]
  · by_cases hpaths : d.programPath source = d.supportPath source
    · simp [hpaths, eq_comm]
    · simp [hpaths]

/-- The program is written over if and only if its name is that of the support file. -/
theorem paths_meet_iff (d : Destination) (source : String) {extension support : String}
    (hextension : (if d.extension == "" then ".jl" else d.extension) = extension)
    (hsupport : (if d.support == "" then Intrinsic.supportFile else d.support) = support)
    (hprogram : Path.Plain (Path.outputName source extension)) (hplain : Path.Plain support) :
    d.programPath source = d.supportPath source ↔ Path.outputName source extension = support := by
  subst hextension hsupport
  exact Path.join_plain_iff _ hprogram hplain

/-- The program of a source `macros.f` has the path of the usual support file, and is gone. -/
theorem program_written_over : ∃ (r : Conversion) (after : Files),
    (r.write (m := StateM Files) "macros.f" {}).run ⟨fun _ => none⟩ =
      ({ paths := ["macros.jl", "macros.jl"], error := none }, after) ∧
    after.content "macros.jl" ≠ some r.program := by
  let r : Conversion := ⟨"using Printf\n\n", "using OffsetArrays\n", "P", [], 1, 1⟩
  have hprogram : Destination.programPath {} "macros.f" = "macros.jl" := by decide +kernel
  have hsupport : Destination.supportPath {} "macros.f" = "macros.jl" := by decide +kernel
  have hrun := r.write_run "macros.f" {} ⟨fun _ => none⟩
  rw [hprogram, hsupport] at hrun
  refine ⟨r, _, hrun, ?_⟩
  simp [r]

end FortranJulia

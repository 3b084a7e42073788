import ChunkGuard.Proofs.Initial
import ChunkGuard.Proofs.Mirroring
import ChunkGuard.Proofs.Options
import ChunkGuard.Proofs.Printing

/-!
# Writing checksums and printing files

The checksums that `Tool.checksum` writes of a file are the sidecar that `Tool.cat` checks the file
against, so the file is printed as it was. Of several copies each batch is printed from the first one
that still has it (`Tool.cat_agrees_with_checksum`). Both commands run on open files, whose runs are
those of the bytes that the files hold.
-/

namespace ChunkGuard

/-! ## Arguments -/

namespace Command

/-- A word that doesn't start with a dash is no option. -/
theorem option?_eq_none {argument : String} (h : argument.toList.head? ≠ some '-') :
    option? argument = none := by
  rw [option?]
  split
  · rename_i hlist
    rw [hlist] at h
    exact absurd rfl h
  · rfl

end Command

namespace Tool

/-- The arguments that ask for checksums. -/
def flags : Algorithm → List String
  | .crc32 => []
  | .crc32c => ["-c32c"]

/-- The options that are given then. -/
def options : Algorithm → List String
  | .crc32 => []
  | .crc32c => ["c32c"]

variable {a : Algorithm} {paths : List String}

/-- With the checksums asked for and some paths, the paths are the parameters. -/
theorem parse_eq {format : Command.Format} (hpaths : ∀ path ∈ paths, path.toList.head? ≠ some '-')
    (hknown : "c32c" ∈ format.options) (hgiven : format.given = [])
    (hleast : format.least ≤ paths.length) (hmost : paths.length ≤ format.most) (command : String) :
    parse format (command :: (flags a ++ paths)) =
      pure (paths, { format with given := options a }) := by
  have hoption : ∀ path ∈ paths, Command.option? path = none := fun path hpath =>
    Command.option?_eq_none (hpaths path hpath)
  have hknows : ∀ word ∈ flags a ++ paths, format.knows word := by
    refine List.forall_mem_append.mpr ⟨?_, fun path hpath =>
      Command.Format.knows_of_option?_eq_none (hoption path hpath)⟩
    cases a with
    | crc32 => nofun
    | crc32c =>
        refine List.forall_mem_singleton.mpr ?_
        rw [Command.Format.knows_of_option?_eq_some rfl]
        exact decide_eq_true hknown
  have hflags : (flags a).filterMap Command.option? = options a ∧
      (flags a).filter (!Command.isOption ·) = [] := by
    cases a <;> exact ⟨rfl, rfl⟩
  have hparameters : paths.filter (!Command.isOption ·) = paths :=
    List.filter_eq_self.mpr fun path hpath => by rw [Command.isOption_eq, hoption path hpath]; rfl
  have hnote : format.note (flags a ++ paths) = { format with given := options a } := by
    rw [Command.Format.note_of_knows hknows, List.filterMap_append, hflags.1,
      List.filterMap_eq_nil_iff.mpr hoption, hgiven]
    cases a <;> rfl
  have hverdict : format.verdict (flags a ++ paths) = .ok paths := by
    refine Command.Format.verdict_eq_ok.mpr ⟨hknows, ?_, hleast, hmost⟩
    rw [List.filter_append, hflags.2, hparameters]
    rfl
  rw [parse, Command.Format.parse_eq_leaving, List.drop_succ_cons, List.drop_zero, hnote, hverdict]
  rfl

/-- The checksums are those that were asked for. -/
theorem algorithm_eq {format : Command.Format} (hknown : "c32c" ∈ format.options)
    (hgiven : format.given = options a) : algorithm format = pure a := by
  have hasked : format.isGiven "c32c" = .ok (decide ("c32c" ∈ options a)) := by
    rw [Command.Format.isGiven, if_pos hknown, hgiven]
  rw [algorithm, isGiven, hasked]
  cases a <;> rfl

/-- An option that isn't noted wasn't given. -/
theorem isGiven_eq_false {format : Command.Format} {option : String}
    (hknown : option ∈ format.options) (hnot : option ∉ format.given) :
    isGiven format option = pure false := by
  rw [isGiven, Command.Format.isGiven, if_pos hknown, decide_eq_false hnot]
  rfl

end Tool

/-! ## Opening files -/

/-- Other files stay. -/
theorem FileTree.HoldsAt.put_of_ne {t : FileTree} {path : String} {place place' : Place}
    {bytes : Bytes} (h : t.HoldsAt path place (some bytes)) (htakes : t.Takes place')
    (hne : place ≠ place') (c : Content) :
    (t.put place' (.file c)).HoldsAt path place (some bytes) := by
  refine ⟨resolve_put htakes h.1, ?_⟩
  rw [bytes?, node?_put_of_ne hne]
  exact h.2

/-- A file in the root directory is found by its name. -/
theorem FileTree.holdsAt_of_node? {t : FileTree} {name : String} {bytes : Bytes}
    (hcurrent : t.current = []) (hname : Proper name) (hnames : names name = [name])
    (habsolute : isAbsolute name = false) (hlong : ¬ pathLimit < (t.absolute name).utf8ByteSize)
    (hnode : t.node? [name] = some (.file (.ofBytes bytes))) :
    t.HoldsAt name [name] (some bytes) := by
  have hempty : ¬ name.isEmpty := fun h => hname.not_here (.inl (String.isEmpty_iff.mp h))
  refine ⟨resolve_eq_ok.mpr ⟨hlong, hempty, ?_⟩,
    bytes?_eq_some.mpr ⟨_, hnode, Content.toBytes_ofBytes bytes⟩⟩
  rw [hnames, habsolute, hcurrent]
  exact .into rfl hname hnode nofun (.here _ _)

namespace Tool

variable {d : Desk} {path : String} {bytes : Bytes}

/-- With a value there is nothing that fails. -/
@[simp] theorem ends_orFail_ok {ε α : Type} {failure : ε → Failure} {x : α} {Q : α → Desk → Prop}
    {E : Failure → Desk → Prop} : Ends (orFail failure (.ok x)) d Q E ↔ Q x d := Iff.rfl

/-- A file that is there is opened for reading, which changes nothing. -/
theorem ends_openFile_reading (h : d.tree.Holds path (some bytes)) {Q : OpenFile → Desk → Prop}
    {E : Failure → Desk → Prop}
    (hQ : ∀ file place,
      file.Shows (d.tree.absolute path) place false d.tree.offsetLimit bytes → Q file d) :
    Ends (openFile path false) d Q E := by
  obtain ⟨place, hplace⟩ := h
  obtain ⟨file, hopen, hfile⟩ := FileTree.openFile_of_some hplace false
  simp only [openFile, ends_bind, ends_get, hopen, ends_orFail_ok, ends_modify, ends_pure]
  exact hQ file place hfile

/-- A file is opened for writing, and made empty if it is missing. Other files stay. -/
theorem ends_openFile_writing {place : Place} {old : Option Bytes}
    (h : d.tree.HoldsAt path place old) {Q : OpenFile → Desk → Prop} {E : Failure → Desk → Prop}
    (hQ : ∀ file tree,
      file.Shows (d.tree.absolute path) place true d.tree.offsetLimit (old.getD []) →
      tree.HoldsAt path place (some (old.getD [])) →
      (∀ p q content, q ≠ place → d.tree.HoldsAt p q (some content) →
        tree.HoldsAt p q (some content)) →
      Q file { d with tree }) : Ends (openFile path true) d Q E := by
  simp only [openFile, ends_bind, ends_get]
  cases old with
  | some bytes =>
      obtain ⟨file, hopen, hfile⟩ := FileTree.openFile_of_some h true
      simp only [hopen, ends_orFail_ok, ends_modify, ends_pure]
      exact hQ file d.tree hfile h fun _ _ _ _ hother => hother
  | none =>
      obtain ⟨file, hopen, hfile⟩ := FileTree.openFile_of_none h
      simp only [hopen, ends_orFail_ok, ends_modify, ends_pure]
      exact hQ file _ hfile (h.put []) fun _ _ _ hne hother => hother.put_of_ne h.takes hne []

/-- The storage in memory that a file at a path goes with. -/
def storageAt (t : FileTree) (path : String) (bytes : Bytes) : Storage :=
  { bytes, medium := .file (t.absolute path) }

/-- The replica of a file and its checksums. -/
def replicaAt (a : Algorithm) (data : Bytes) (t : FileTree) (file : String × Bytes) : Replica :=
  ⟨storageAt t file.1 file.2,
    storageAt t (file.1 ++ extension) (Sidecar.ofBytes a chunkSize data)⟩

/-- The files are there, each with the checksums of the data. -/
def Checked (a : Algorithm) (data : Bytes) (t : FileTree) (files : List (String × Bytes)) : Prop :=
  ∀ file ∈ files, t.Holds file.1 (some file.2) ∧
    t.Holds (file.1 ++ extension) (some (Sidecar.ofBytes a chunkSize data))

/-- The files of a replica that are open go with the storages of another one. -/
def Opened (r : Replica OpenFile) (r' : Replica) : Prop :=
  r.data.Mirrors r'.data ∧ r.sums.Mirrors r'.sums

/-- Opening the files for reading changes nothing and gives replicas that go with those in memory. -/
theorem ends_mapM_openFile {a : Algorithm} {data : Bytes} {files : List (String × Bytes)}
    (h : Checked a data d.tree files) {Q : List (Option OpenFile × Option OpenFile) → Desk → Prop}
    {E : Failure → Desk → Prop}
    (hQ : ∀ list, List.Forall₂ Opened list (files.map (replicaAt a data d.tree)) →
      Q (list.map Replica.storages) d) :
    Ends ((files.map Prod.fst).mapM fun path => do
        let data ← openFile path false
        let sums ← openFile (path ++ extension) false
        return (some data, some sums)) d Q E := by
  induction files generalizing Q with
  | nil => exact hQ [] .nil
  | cons file rest ih =>
      obtain ⟨hdata, hsums⟩ := h file List.mem_cons_self
      simp only [List.map_cons, List.mapM_cons, bind_assoc, pure_bind]
      rw [ends_bind]
      refine ends_openFile_reading hdata fun data place hshows => ?_
      rw [ends_bind]
      refine ends_openFile_reading hsums fun sums place' hshows' => ?_
      rw [ends_bind]
      refine ih (fun other hother => h other (List.mem_cons_of_mem _ hother)) fun list hlist => ?_
      have hopened : Opened ⟨data, sums⟩ (replicaAt a _ d.tree file) :=
        ⟨⟨_, _, _, _, hshows, rfl⟩, ⟨_, _, _, _, hshows', rfl⟩⟩
      exact hQ (⟨data, sums⟩ :: list) (.cons hopened hlist)

end Tool

/-! ## Building the replicas and the stream -/

/-- Replicas with both storages are taken over. -/
theorem Replicas.ofList?_eq {ρ : Type} {list : List (Replica ρ)} {chunk : Nat} (hlist : list ≠ [])
    (hchunk : chunk ≠ 0) : ofList? (list.map Replica.storages) chunk = .ok { list, chunk } := by
  have hmap : ∀ (f : Option ρ × Option ρ → Except StreamError (Replica ρ))
      (list : List (Replica ρ)), (∀ replica, f replica.storages = .ok replica) →
      (list.map Replica.storages).mapM f = .ok list := by
    intro f list hf
    induction list with
    | nil => rfl
    | cons replica rest ih =>
        rw [List.map_cons, List.mapM_cons, hf, ih]
        rfl
  have hsome : ¬ (list.map Replica.storages).isEmpty := by
    rw [List.isEmpty_map, List.isEmpty_iff]
    exact hlist
  simp only [ofList?, bind, Except.bind, pure, Except.pure, if_neg hsome, if_neg hchunk]
  rw [hmap _ list fun replica => rfl]

/-- Options that nothing is wrong with are taken over. -/
theorem Stream.exists_ofOptions?_eq {checksum : Option Algorithm} {o : Options}
    (hchunk : o.maxChunk ≠ 0) (hattempts : o.attempts ≠ 0)
    (hwidth : o.sumWidth = ChunkGuard.sumWidth) : ∃ s, ofOptions? checksum o = .ok s := by
  have hwidth : ¬ (checksum.isSome ∧ o.sumWidth ≠ ChunkGuard.sumWidth) := fun h => h.2 hwidth
  simp only [ofOptions?, bind, Except.bind, pure, Except.pure, if_neg hchunk, if_neg hattempts,
    if_neg hwidth]
  exact ⟨_, rfl⟩

namespace Tool

variable {a : Algorithm} {data : Bytes} {files : List (String × Bytes)} {d : Desk}

/-- The replicas in memory hold what the files hold. -/
theorem store_replicaAt (t : FileTree) :
    Replicas.Store a data (files.map Prod.snd)
      { list := files.map (replicaAt a data t), chunk := chunkSize } where
  chunk := rfl
  length := by rw [List.length_map, List.length_map]
  bytes i := by
    rw [Replicas.get, List.getD_eq_getElem?_getD, List.getD_eq_getElem?_getD, List.getElem?_map,
      List.getElem?_map]
    cases files[i]? <;> rfl
  sums i hi := by
    rw [List.length_map] at hi
    rw [Replicas.get, List.getD_eq_getElem?_getD, List.getElem?_map, List.getElem?_eq_getElem hi]
    rfl

/-- All copies together are no shorter than one of them. -/
theorem length_le_totalSize (hsome : files ≠ [])
    (hcopies : ∀ copy ∈ files.map Prod.snd, IsCopy a data copy) {t : FileTree}
    {list : List (Replica OpenFile)} (h : List.Forall₂ Opened list (files.map (replicaAt a data t)))
    (chunk : Nat) : data.length ≤ Replicas.totalSize { list, chunk } := by
  have hle : ∀ (list : List (Replica OpenFile)) (n : Nat),
      n ≤ list.foldl (fun n r => n + Storing.size r.data) n := by
    intro list
    induction list with
    | nil => exact Nat.le_refl
    | cons replica rest ih => exact fun n => Nat.le_trans (Nat.le_add_right _ _) (ih _)
  obtain ⟨file, rest, rfl⟩ := List.exists_cons_of_ne_nil hsome
  obtain ⟨replica, others, hfirst, -, rfl⟩ := List.forall₂_cons_right_iff.mp h
  have hsize : Storing.size replica.data = data.length :=
    (OpenFile.answers_mirrors.size_eq hfirst.1).trans (hcopies file.2 List.mem_cons_self).length_eq
  rw [← hsize]
  exact Nat.le_trans (Nat.le_add_left _ _) (hle others _)

/-! ## Printing -/

/-- A stream over copies begins with the first batch. -/
theorem pumping_of_new {stream : Stream} {name : String} {t : FileTree} {lent : Bytes}
    (hsome : files ≠ []) (hcopies : ∀ copy ∈ files.map Prod.snd, IsCopy a data copy)
    (hdata : data.length < Word.half) (hlent : lent.length = batchSize) (houtput : d.output = [])
    (hstream : Stream.ofOptions? (some a)
      { maxChunk := chunkSize, attempts := files.length, name } = .ok stream) :
    Pumping a (files.map Prod.snd) data 0
      { stream, lent
        source := { state := { list := files.map (replicaAt a data t), chunk := chunkSize } } } d := by
  obtain ⟨-, -, rfl⟩ := Stream.eq_of_ofOptions? hstream
  have hlist : files.map (replicaAt a data t) ≠ [] := by
    rw [ne_eq, List.map_eq_nil_iff]
    exact hsome
  have hhalf : Word.half + chunkSize ≤ Word.count := by decide
  have hstore : Replicas.Store a data (files.map Prod.snd)
      { list := files.map (replicaAt a data t), chunk := chunkSize } := store_replicaAt t
  refine ⟨⟨⟨rfl, rfl, rfl, chunkSize_pos, by decide, fun _ => Bytes.length_zeros _,
    Replicas.inOrder_of_new hlist⟩, rfl, hstore.uniform hcopies (by omega), rfl, rfl, ?_⟩, hstore,
    rfl, hlent, ?_, ?_⟩
  · rw [Nat.zero_mul, Nat.min_zero]
    rfl
  · exact Nat.le_of_eq (List.length_map ..)
  · rw [houtput, Nat.zero_mul, List.take_zero]

/-- Files with the data's checksums are printed batch by batch. -/
theorem ends_cat (hnames : ∀ file ∈ files, file.1.toList.head? ≠ some '-') (hsome : files ≠ [])
    (hmost : files.length < attemptsCount) (hchecked : Checked a data d.tree files)
    (hcopies : ∀ copy ∈ files.map Prod.snd, IsCopy a data copy) (hdata : data.length < Word.half)
    (houtput : d.output = []) :
    Ends (cat ("cat" :: (flags a ++ files.map Prod.fst))) d
      (fun _ t => Printed (files.map Prod.snd) data 0 d t)
      (fun failure t => ∃ last, Stopped (files.map Prod.snd) data 0 last failure d t) := by
  have hpaths : ∀ path ∈ files.map Prod.fst, path.toList.head? ≠ some '-' :=
    List.forall_mem_map.mpr hnames
  have hlength : (files.map Prod.fst).length = files.length := List.length_map ..
  have hpos := List.length_pos_iff.mpr hsome
  have hwords : files.length ≤ Word.count - 1 :=
    Nat.le_trans (Nat.le_of_lt hmost) (show attemptsCount ≤ Word.count - 1 by decide)
  have hsums : "c32c" ∈ ["noverify", "c32c"] := by decide
  have hverify : "noverify" ∈ ["noverify", "c32c"] := by decide
  have hnot : "noverify" ∉ options a := by cases a <;> decide
  have hparse : parse ⟨"cat", 1, Word.count - 1, ["noverify", "c32c"], []⟩
      ("cat" :: (flags a ++ files.map Prod.fst)) =
      pure (files.map Prod.fst, ⟨"cat", 1, Word.count - 1, ["noverify", "c32c"], options a⟩) :=
    parse_eq hpaths hsums rfl (hlength ▸ hpos) (hlength ▸ hwords) "cat"
  obtain ⟨stream, hstream⟩ : ∃ stream, Stream.ofOptions? (some a)
      { maxChunk := chunkSize, attempts := files.length
        name := (files.map Prod.fst).headD "" } = .ok stream :=
    Stream.exists_ofOptions?_eq (Nat.ne_of_gt chunkSize_pos) (Nat.ne_of_gt hpos) rfl
  simp only [cat, hparse, pure_bind, ends_bind]
  refine ends_mapM_openFile hchecked fun list hlist => ?_
  have hcount : list.length = files.length := hlist.length_eq.trans (List.length_map ..)
  have hattempts : (list.map Replica.storages).length % attemptsCount = files.length := by
    rw [List.length_map, hcount, Nat.mod_eq_of_lt hmost]
  have hlistSome : list ≠ [] := List.ne_nil_of_length_pos (hcount ▸ hpos)
  rw [Replicas.ofList?_eq hlistSome (Nat.ne_of_gt chunkSize_pos), isGiven_eq_false hverify hnot,
    algorithm_eq hsums rfl, hattempts]
  simp only [ends_orFail_ok, ends_pure, Bool.not_false, hstream]
  -- Only the length of the buffer matters, and its bytes had better not be evaluated.
  have hlent : (Bytes.zeros batchSize).length = batchSize := Bytes.length_zeros _
  generalize Bytes.zeros batchSize = lent at hlent ⊢
  have hword : data.length + chunkSize ≤ Word.count := by
    have hhalf : Word.half + chunkSize ≤ Word.count := by decide
    omega
  have hsize := length_le_totalSize hsome hcopies hlist chunkSize
  -- The files are read as their copies in memory would be.
  have hpaired : Session.Paired (fun _ => Replicas.Mirrors OpenFile.Mirrors)
      { stream, source := { list, chunk := chunkSize }, lent }
      { stream, lent
        source := { list := files.map (replicaAt a data d.tree), chunk := chunkSize } } :=
    ⟨_, .of_forall₂ hlistSome hlist chunkSize, rfl⟩
  refine (ends_pump_of_paired (Replicas.couples_source OpenFile.answers_mirrors) hpaired
    ((pumping_of_new hsome hcopies hdata hlent houtput hstream).ends_pump hcopies hword
      (Nat.lt_succ_of_le (Nat.le_trans (Nat.sub_le _ _) hsize)))).mono ?_ (fun _ _ ht => ht)
  rintro _ t ⟨_, -, ht⟩
  exact ⟨ht.output, ht.tree, ht.all⟩

/-! ## Writing checksums -/

/-- The sidecar of data whose size is a position has a size that is a word. -/
theorem sidecar_lt_count (hdata : data.length < Word.half) :
    sumWidth * Chunk.count data.length chunkSize < Word.count := by
  have hchunks : Word.half ≤ 2 ^ 54 * chunkSize := by decide
  have hcount : Chunk.count data.length chunkSize ≤ 2 ^ 54 :=
    Chunk.count_le (Nat.le_trans (Nat.le_of_lt hdata) hchunks)
  exact Nat.lt_of_le_of_lt (Nat.mul_le_mul_left sumWidth hcount) (by decide)

/-- The checksums of a file are written beside it, whatever was there before, and the file stays. -/
theorem ends_checksum {path : String} {place place' : Place} {old : Option Bytes}
    (hname : path.toList.head? ≠ some '-') (hfile : d.tree.HoldsAt path place (some data))
    (hbeside : d.tree.HoldsAt (path ++ extension) place' old) (hplaces : place ≠ place')
    (hold : (old.getD []).length ≤ d.tree.offsetLimit + 1)
    (hroom : (Sidecar.ofBytes a chunkSize data).length ≤ d.tree.offsetLimit + 1)
    (hdata : data.length < Word.half) :
    Ends (checksum ("checksum" :: (flags a ++ [path]))) d
      (fun _ t => t.output = d.output ∧ t.tree.HoldsAt path place (some data) ∧
        t.tree.HoldsAt (path ++ extension) place' (some (Sidecar.ofBytes a chunkSize data)))
      (fun _ _ => False) := by
  have hnames : ∀ p ∈ [path], p.toList.head? ≠ some '-' := by
    simp only [List.mem_singleton]
    rintro _ rfl
    exact hname
  have hsums : "c32c" ∈ ["c32c"] := by decide
  have hparse : parse ⟨"checksum", 1, 1, ["c32c"], []⟩ ("checksum" :: (flags a ++ [path])) =
      pure ([path], ⟨"checksum", 1, 1, ["c32c"], options a⟩) :=
    parse_eq hnames hsums rfl (Nat.le_refl 1) (Nat.le_refl 1) "checksum"
  have halgorithm : algorithm ⟨"checksum", 1, 1, ["c32c"], options a⟩ = pure a :=
    algorithm_eq hsums rfl
  have hword : data.length + chunkSize ≤ Word.count := by
    have hhalf : Word.half + chunkSize ≤ Word.count := by decide
    omega
  simp only [checksum, hparse, pure_bind, List.headD_cons, ends_bind]
  refine ends_openFile_reading ⟨place, hfile⟩ fun file _ hshows => ?_
  -- Opening may make the file of the checksums, which leaves the other one where it is.
  refine ends_openFile_writing hbeside fun target tree htarget hmade hother => ?_
  have hstays := hother path place data hplaces hfile
  rw [Sidecar.length_ofBytes] at hroom
  have hends : Ends (Sidecar.write chunkSize) { data := file, target, checksum := .ofAlgorithm a }
      (fun _ desk => desk.target.Shows (d.tree.absolute (path ++ extension)) place' true
        d.tree.offsetLimit (Sidecar.ofBytes a chunkSize data)) (fun _ _ => False) :=
    (Sidecar.ends_write hshows.serves (OpenFile.holds _ place' _) chunkSize_pos (by decide) hword
      (sidecar_lt_count hdata) hroom rfl ⟨htarget, hold⟩).mono (fun _ _ ht => ht.2.1.1)
      (fun _ _ hfalse => hfalse)
  obtain ⟨_, desk, hwrite, hwritten⟩ := hends.exists_ok
  simp only [halgorithm, ends_pure, hwrite, save, ends_modify, hwritten.save_eq]
  have hcontent : Content.toBytes desk.target.content = Sidecar.ofBytes a chunkSize data :=
    hwritten.bytes_eq
  rw [← hcontent]
  exact ⟨True.intro, hstays.put_of_ne hmade.takes hplaces _, hmade.put _⟩

/-! ## Runs -/

/-- A run of the tool ends as its command does. -/
theorem run_of_ends {name : String} {rest : List String} {command : List String → ToolM Unit}
    {t : FileTree} {program : Usage.Program} {Q : Desk → Prop} {E : Failure → Desk → Prop}
    (hname : name ≠ "-v") (hcommand : command? name = some command)
    (h : Ends (command (name :: rest)) { tree := t, program } (fun _ => Q) E) :
    ∃ d, (run (name :: rest) t program).output = d.output ∧
      (run (name :: rest) t program).tree = d.tree ∧
      ((run (name :: rest) t program).exit = 0 ∧ Q d ∨
        ∃ failure, (run (name :: rest) t program).exit = failure.exitCode ∧ E failure d) := by
  have hverbose : ¬ (name :: rest).head? = some "-v" := fun hv => hname (Option.some.inj hv)
  cases hm : command (name :: rest) { tree := t, program } with
  | ok _ d =>
      simp only [run, if_neg hverbose, List.headD_cons, hcommand, hm]
      exact ⟨d, rfl, rfl, .inl ⟨True.intro, h.ok hm⟩⟩
  | error failure d =>
      simp only [run, if_neg hverbose, List.headD_cons, hcommand, hm]
      exact ⟨d, rfl, rfl, .inr ⟨failure, rfl, h.error hm⟩⟩

/-- What is printed of copies: the data up to the first batch that no copy is left for, if there is
such a batch. Nothing but a part of the data from its start is printed, and no file is changed. -/
structure Prints (copies : List Bytes) (data : Bytes) (t : FileTree) (r : Result) : Prop where
  tree : r.tree = t
  part : r.output <+: data
  all : (∀ i, i * batchSize < data.length → (copyOf? copies data i).isSome) →
    r.output = data ∧ r.exit = 0
  some : ∀ i, i * batchSize < data.length → copyOf? copies data i = none →
    (∀ j < i, (copyOf? copies data j).isSome) → r.output = data.take (i * batchSize) ∧ r.exit = 2

/-- Files with the data's checksums are printed up to the first batch that none of them is left
for. -/
theorem prints_cat {t : FileTree} (program : Usage.Program)
    (hnames : ∀ file ∈ files, file.1.toList.head? ≠ some '-') (hsome : files ≠ [])
    (hmost : files.length < attemptsCount) (hchecked : Checked a data t files)
    (hcopies : ∀ copy ∈ files.map Prod.snd, IsCopy a data copy) (hdata : data.length < Word.half) :
    Prints (files.map Prod.snd) data t
      (run ("cat" :: (flags a ++ files.map Prod.fst)) t program) := by
  obtain ⟨d, houtput, htree, ⟨hexit, hd⟩ | ⟨failure, hexit, last, hd⟩⟩ :=
    run_of_ends (Q := fun d => Printed (files.map Prod.snd) data 0 { tree := t, program } d)
      (by decide) rfl
      (ends_cat (d := { tree := t, program }) hnames hsome hmost hchecked hcopies hdata rfl)
  -- If the printing ended, no batch lacked a copy. If it failed, the first one that did is the one
  -- it stopped at, so either hypothesis picks out what was printed.
  · have hdone := houtput.trans hd.output
    refine ⟨htree.trans hd.tree, ⟨[], (List.append_nil _).trans hdone⟩, fun _ => ⟨hdone, hexit⟩,
      fun i hinside hnone _ => ?_⟩
    have hfound := hd.all i (Nat.zero_le i) hinside
    rw [hnone] at hfound
    cases hfound
  · obtain ⟨e, rfl⟩ := hd.failure
    refine ⟨htree.trans hd.tree, ?_, fun hall => ?_, fun i hinside hnone hbefore => ?_⟩
    · rw [houtput, hd.output]
      exact List.take_prefix _ _
    · have hfound := hall last hd.inside
      rw [hd.none] at hfound
      cases hfound
    · obtain hlt | rfl | hlt := Nat.lt_trichotomy i last
      · have hfound := hd.before i (Nat.zero_le i) hlt
        rw [hnone] at hfound
        cases hfound
      · exact ⟨houtput.trans hd.output, hexit⟩
      · have hfound := hbefore last hlt
        rw [hd.none] at hfound
        cases hfound

/-- Data is a copy of itself. -/
theorem IsCopy.refl (a : Algorithm) (data : Bytes) : IsCopy a data data :=
  ⟨rfl, fun _ hne => absurd rfl hne⟩

/-- Of data that is one chunk a copy is what has the same length and another checksum. -/
theorem IsCopy.of_sum_ne {copy : Bytes} (hlength : copy.length = data.length)
    (hchunk : data.length ≤ chunkSize) (hsum : a.sum copy ≠ a.sum data) : IsCopy a data copy := by
  refine ⟨hlength, fun index hne => ?_⟩
  cases index with
  | zero =>
      rw [Nat.zero_mul, Bytes.slice, Bytes.slice, List.drop_zero, List.drop_zero,
        List.take_of_length_le hchunk, List.take_of_length_le (hlength ▸ hchunk)]
      exact hsum
  | succ index =>
      have hpast : data.length ≤ (index + 1) * chunkSize := by
        rw [Nat.add_mul]
        omega
      rw [Bytes.slice, Bytes.slice, List.drop_of_length_le hpast,
        List.drop_of_length_le (hlength ▸ hpast)] at hne
      exact absurd rfl hne

/-- Of a single undamaged copy every batch is printed. -/
theorem copyOf?_singleton (data : Bytes) (index : Nat) : copyOf? [data] data index = some 0 := by
  have hnext : ∀ index, nextCopy? [data] data index 0 = some 0 := fun index =>
    nextCopy?_eq_some.mpr ⟨⟨Nat.le_refl 0, rfl⟩, Nat.zero_lt_one,
      fun j hj => absurd hj (Nat.not_lt_zero j)⟩
  induction index with
  | zero => exact hnext 0
  | succ index ih => rw [copyOf?, ih, Option.bind_some, hnext]

/-- A file is printed as it is once its checksums were written to a file of their own, whatever was
there before. Files that the system has are within its greatest offset: the old file of checksums and
the new one are bounded by it, and the bound on the data is that of any system. Of several copies of
some data, each with the data's checksums, the batches are printed up to the first one that no copy
is left for. There are fewer copies than a number of attempts can count. -/
theorem cat_agrees_with_checksum (a : Algorithm) {data : Bytes} (hdata : data.length < Word.half)
    (program : Usage.Program) :
    (∀ (t : FileTree) (path : String) (place place' : Place) (old : Option Bytes),
      path.toList.head? ≠ some '-' → t.HoldsAt path place (some data) →
      t.HoldsAt (path ++ extension) place' old → place ≠ place' →
      (old.getD []).length ≤ t.offsetLimit + 1 →
      (Sidecar.ofBytes a chunkSize data).length ≤ t.offsetLimit + 1 →
      let written := run ("checksum" :: (flags a ++ [path])) t program
      let printed := run ("cat" :: (flags a ++ [path])) written.tree program
      (written.exit = 0 ∧ written.output = []) ∧
      written.tree.HoldsAt path place (some data) ∧
      written.tree.HoldsAt (path ++ extension) place' (some (Sidecar.ofBytes a chunkSize data)) ∧
      printed.exit = 0 ∧ printed.output = data) ∧
    ∀ (t : FileTree) (files : List (String × Bytes)), files ≠ [] → files.length < attemptsCount →
      (∀ file ∈ files, file.1.toList.head? ≠ some '-') → Checked a data t files →
      (∀ file ∈ files, IsCopy a data file.2) →
      Prints (files.map Prod.snd) data t
        (run ("cat" :: (flags a ++ files.map Prod.fst)) t program) := by
  refine ⟨fun t path place place' old hname hfile hbeside hplaces hold hroom => ?_,
    fun t files hsome hmost hnames hchecked hcopies =>
      prints_cat program hnames hsome hmost hchecked (List.forall_mem_map.mpr hcopies) hdata⟩
  obtain ⟨d, houtput, htree, ⟨hexit, hkept, hstays, hsums⟩ | ⟨_, -, hfalse⟩⟩ :=
    run_of_ends (Q := fun d => d.output = [] ∧ d.tree.HoldsAt path place (some data) ∧
        d.tree.HoldsAt (path ++ extension) place' (some (Sidecar.ofBytes a chunkSize data)))
      (by decide) rfl
      (ends_checksum (a := a) (d := { tree := t, program }) hname hfile hbeside hplaces hold
        hroom hdata)
  · -- The file is the only copy of its own content, and undamaged.
    dsimp only
    rw [htree]
    have hnames : ∀ file ∈ [(path, data)], file.1.toList.head? ≠ some '-' := by
      simpa only [List.mem_singleton, forall_eq] using hname
    have hchecked : Checked a data d.tree [(path, data)] := by
      simpa only [Checked, List.mem_singleton, forall_eq] using ⟨⟨place, hstays⟩, ⟨place', hsums⟩⟩
    have hcopies : ∀ copy ∈ [data], IsCopy a data copy := by
      simpa only [List.mem_singleton, forall_eq] using IsCopy.refl a data
    have hmost : [(path, data)].length < attemptsCount := show 1 < attemptsCount by decide
    have hprints := prints_cat program hnames (List.cons_ne_nil _ _) hmost hchecked hcopies hdata
    obtain ⟨hprinted, hdone⟩ := hprints.all fun i _ => by
      rw [List.map_cons, List.map_nil, copyOf?_singleton]
      rfl
    exact ⟨⟨hexit, houtput.trans hkept⟩, hstays, hsums, hdone, hprinted⟩
  · exact hfalse.elim

/-- A damaged copy is passed over, and alone it isn't printed. -/
theorem cat_agrees_with_checksum_of_damaged :
    let sums := Sidecar.ofBytes .crc32c chunkSize [1, 2, 3]
    let t : FileTree :=
      { nodes := [(["f"], .file (.ofBytes [1, 9, 3])), (["f.crc"], .file (.ofBytes sums)),
          (["g"], .file (.ofBytes [1, 2, 3])), (["g.crc"], .file (.ofBytes sums))]
        current := [] }
    (run ["cat", "-c32c", "g"] (run ["checksum", "-c32c", "g"] t none).tree none).output =
        [1, 2, 3] ∧
      (run ["cat", "-c32c", "f", "g"] t none).output = [1, 2, 3] ∧
      (run ["cat", "-c32c", "f", "g"] t none).exit = 0 ∧
      (run ["cat", "-c32c", "f"] t none).output = [] ∧
      (run ["cat", "-c32c", "f"] t none).exit = 2 := by
  intro sums t
  have hf : t.HoldsAt "f" ["f"] (some [1, 9, 3]) := FileTree.holdsAt_of_node? rfl
    ⟨by decide, by decide, by decide⟩ (by decide) (by decide) (by decide) rfl
  have hg : t.HoldsAt "g" ["g"] (some [1, 2, 3]) := FileTree.holdsAt_of_node? rfl
    ⟨by decide, by decide, by decide⟩ (by decide) (by decide) (by decide) rfl
  have hfSums : t.HoldsAt "f.crc" ["f.crc"] (some sums) := FileTree.holdsAt_of_node? rfl
    ⟨by decide, by decide, by decide⟩ (by decide) (by decide) (by decide) rfl
  have hgSums : t.HoldsAt "g.crc" ["g.crc"] (some sums) := FileTree.holdsAt_of_node? rfl
    ⟨by decide, by decide, by decide⟩ (by decide) (by decide) (by decide) rfl
  have hcopy : IsCopy .crc32c [1, 2, 3] [1, 9, 3] :=
    .of_sum_ne rfl (by decide) (by decide +kernel)
  have hfirst : ∀ i, i * batchSize < 3 → i = 0 := by
    intro i hi
    have hbatch : 3 ≤ 1 * batchSize := by decide
    refine Decidable.byContradiction fun hne => ?_
    have hlater := Nat.mul_le_mul_right batchSize (Nat.pos_of_ne_zero hne)
    omega
  have hdata : ([1, 2, 3] : Bytes).length < Word.half := by decide
  obtain ⟨hwritten, hcopies⟩ := cat_agrees_with_checksum .crc32c hdata none
  obtain ⟨-, -, -, -, hprinted⟩ :=
    hwritten t "g" ["g"] ["g.crc"] (some sums) (by decide) hg hgSums (by decide) (by decide)
      (by decide)
  have hboth := hcopies t [("f", [1, 9, 3]), ("g", [1, 2, 3])] (by decide) (by decide) (by decide)
    (by simpa [Checked] using ⟨⟨⟨_, hf⟩, ⟨_, hfSums⟩⟩, ⟨⟨_, hg⟩, ⟨_, hgSums⟩⟩⟩)
    (by simpa using ⟨hcopy, IsCopy.refl _ _⟩)
  have halone := hcopies t [("f", [1, 9, 3])] (by decide) (by decide) (by decide)
    (by simpa [Checked] using ⟨⟨_, hf⟩, ⟨_, hfSums⟩⟩) (by simpa using hcopy)
  obtain ⟨houtput, hexit⟩ := hboth.all fun i hi => by
    rw [hfirst i hi]
    decide +kernel
  obtain ⟨hnothing, hfailed⟩ := halone.some 0 (by decide) (by decide +kernel) fun j hj =>
    absurd hj (Nat.not_lt_zero j)
  exact ⟨hprinted, houtput, hexit, hnothing, hfailed⟩

end Tool

end ChunkGuard

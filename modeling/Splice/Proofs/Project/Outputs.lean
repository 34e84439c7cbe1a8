import Splice.Project.Outputs
import Splice.Proofs.Disk

/-!
# Failed builds

A build links the program before it writes anything, and the program is the first file that
it replaces.  So a build that fails before the program has its new content leaves the
program as it was, whatever stands in the way.  The listing and the names come after the
program: a build that fails there has replaced the program all the same.
-/

namespace Splice

namespace Disk

theorem isPlace_clean {q : Text} (h : Path.isAbsolute q = true) : IsPlace (Path.clean q) :=
  ⟨by rwa [Path.isAbsolute_clean], Path.clean_clean q⟩

end Disk

namespace Project

variable {p : Project} {config : Config} {workingDir root : Text} {disk : Disk} {r : BuildResult}
  {stamp : BuildStamp} {changed : List Text} {mishaps : Mishaps} {e : Failure}
  {t t' : OutputTarget}

/-- The path of the program is absolute and clean. -/
theorem isPlace_output {paths : ProjectPaths} (hdir : Path.isAbsolute workingDir = true)
    (h : config.paths workingDir root = .ok paths) : Disk.IsPlace paths.output := by
  rw [Config.paths] at h
  split at h
  · cases h
  · cases h
    obtain ⟨q, hq, habsolute⟩ := Path.exists_absolute_eq hdir root
    have hbase : Path.isAbsolute (Path.absolute workingDir root) = true := by
      rwa [hq, Path.isAbsolute_clean]
    dsimp only
    rw [Path.resolve]
    split
    · exact Disk.isPlace_clean hbase
    · split
      · next hraw => exact Disk.isPlace_clean hraw
      · obtain ⟨q', hq', habsolute'⟩ := Path.isAbsolute_join hbase config.output.path.trim
        rw [hq']
        exact Disk.isPlace_clean habsolute'

/-- The content of the program, if there is one. -/
def program (p : Project) (disk : Disk) : Option DiskNode :=
  (disk.find (Path.elements p.paths.output)).toOption

def writeProgram (p : Project) (r : BuildResult) (mishaps : Mishaps) : Writing Unit :=
  Writing.file mishaps.program "write program" p.paths.output r.code

def writeRest (p : Project) (r : BuildResult) (stamp : BuildStamp) (mishaps : Mishaps) :
    Writing Unit := do
  Writing.listing p r mishaps
  Writing.names p r stamp mishaps

theorem outputs_eq (p : Project) (r : BuildResult) (stamp : BuildStamp) (mishaps : Mishaps) :
    Writing.outputs p r stamp mishaps =
      (p.writeProgram r mishaps >>= fun _ => p.writeRest r stamp mishaps) := rfl

/-- If the program cannot be replaced, it is as it was. -/
theorem program_of_writeProgram_error (hplace : Disk.IsPlace p.paths.output)
    (htree : t.disk.IsTree) (h : p.writeProgram r mishaps t = .error e t') :
    p.program t'.disk = p.program t.disk := by
  rw [writeProgram, Writing.file] at h
  split at h
  · cases h
  · next hreplace =>
      cases h
      exact Disk.find_of_replaceUnless_error hplace htree hreplace

theorem program_of_writeProgram_ok (hplace : Disk.IsPlace p.paths.output)
    (htree : t.disk.IsTree) (h : p.writeProgram r mishaps t = .ok () t') :
    p.program t'.disk = some (.file r.code) := by
  rw [writeProgram, Writing.file] at h
  split at h
  · next hreplace =>
      cases h
      rw [program, Disk.find_of_replaceUnless_ok hplace htree hreplace]
      rfl
  · cases h

section

variable (hlink : p.link disk workingDir mishaps = .ok r)

include hlink

theorem buildUnder_eq (hwrites : Writing.outputs p r stamp mishaps ⟨disk, p.store⟩ = .error e t) :
    (p.buildUnder mishaps disk workingDir stamp changed).1 = .error e ∧
      (p.buildUnder mishaps disk workingDir stamp changed).2.2 = t.disk := by
  rw [buildUnder, hlink]
  simp only [hwrites, and_self]

theorem buildUnder_of_writeProgram (stamp : BuildStamp) (changed : List Text)
    (h : p.writeProgram r mishaps ⟨disk, p.store⟩ = .error e t) :
    (p.buildUnder mishaps disk workingDir stamp changed).1 = .error e ∧
      (p.buildUnder mishaps disk workingDir stamp changed).2.2 = t.disk := by
  apply buildUnder_eq hlink
  rw [outputs_eq]
  simp only [bind, EStateM.bind, h]

theorem buildUnder_of_writeRest (changed : List Text)
    (h : p.writeProgram r mishaps ⟨disk, p.store⟩ = .ok () t)
    (hrest : p.writeRest r stamp mishaps t = .error e t') :
    (p.buildUnder mishaps disk workingDir stamp changed).1 = .error e ∧
      (p.buildUnder mishaps disk workingDir stamp changed).2.2 = t'.disk := by
  apply buildUnder_eq hlink
  rw [outputs_eq]
  simp only [bind, EStateM.bind, h, hrest]

end

/-- A build that fails leaves the program as it was if it fails while the program is linked or
written.  Otherwise the program has its new content, and what comes after it fails. -/
theorem failed_build_program (hdir : Path.isAbsolute workingDir = true)
    (hpaths : config.paths workingDir root = .ok p.paths) (htree : disk.IsTree)
    (h : (p.buildUnder mishaps disk workingDir stamp changed).1 = .error e) :
    let after := (p.buildUnder mishaps disk workingDir stamp changed).2.2
    (p.program after = p.program disk ∧
      (p.link disk workingDir mishaps = .error e ∨
        ∃ r t, p.link disk workingDir mishaps = .ok r ∧
          p.writeProgram r mishaps ⟨disk, p.store⟩ = .error e t)) ∨
    ∃ r t t', p.link disk workingDir mishaps = .ok r ∧
      p.writeProgram r mishaps ⟨disk, p.store⟩ = .ok () t ∧
      p.program t.disk = some (.file r.code) ∧
      p.writeRest r stamp mishaps t = .error e t' ∧ after = t'.disk := by
  have hplace := isPlace_output hdir hpaths
  cases hlink : p.link disk workingDir mishaps with
  | error e' =>
      rw [buildUnder, hlink] at h ⊢
      cases h
      exact Or.inl ⟨rfl, Or.inl rfl⟩
  | ok r =>
      cases hprogram : p.writeProgram r mishaps ⟨disk, p.store⟩ with
      | error e' t =>
          obtain ⟨herror, hdisk⟩ := buildUnder_of_writeProgram hlink stamp changed hprogram
          rw [herror] at h
          cases h
          rw [hdisk]
          exact Or.inl ⟨program_of_writeProgram_error hplace htree hprogram,
            Or.inr ⟨r, t, rfl, hprogram⟩⟩
      | ok u t =>
          cases hrest : p.writeRest r stamp mishaps t with
          | ok u' t' =>
              have hwrites : Writing.outputs p r stamp mishaps ⟨disk, p.store⟩ = .ok () t' := by
                rw [outputs_eq]
                simp only [bind, EStateM.bind, hprogram, hrest]
              rw [buildUnder, hlink] at h
              simp only [hwrites, reduceCtorEq] at h
          | error e' t' =>
              obtain ⟨herror, hdisk⟩ := buildUnder_of_writeRest hlink changed hprogram hrest
              rw [herror] at h
              cases h
              exact Or.inr ⟨r, t, t', rfl, hprogram,
                program_of_writeProgram_ok hplace htree hprogram, hrest, hdisk⟩

/-- A project with a program from an earlier build, and with a listing that cannot be written
because a file stands where its directory would be. -/
def blockedDisk : Disk where
  nodes := [(["p"], .directory), (["p", "blocked"], .file []),
    (["p", "main.wv"], .file "$out(1)\n"), (["p", "out.wvb"], .file "old"),
    (["p", "s.wv"], .file [])]

def blockedConfig : Config :=
  { Config.default with
    stdlib := "s.wv"
    output := { Config.default.output with disasm := "blocked/l.txt" } }

def blockedProject : Project where
  config := blockedConfig
  paths := ⟨"/p", "/p/main.wv", "/p/s.wv", "/p/out.wvb", "/p/blocked/l.txt", "/p/data/symbols.db"⟩
  options := { blockedConfig.buildOptions with stdPath := "/p/s.wv" }

theorem paths_blocked : blockedConfig.paths "/p" "/p" = .ok blockedProject.paths := by rfl

def blockedLoader : Loader where
  sources :=
    [("/p/blocked", []), ("/p/main.wv", "$out(1)\n"), ("/p/out.wvb", "old"), ("/p/s.wv", []),
      ("blocked", []), ("main.wv", "$out(1)\n"), ("out.wvb", "old"), ("s.wv", [])]
  missing := ((blockedDisk.loader "/p").without []).missing

theorem loader_blocked : (blockedDisk.loader "/p").without [] = blockedLoader := by
  have hfiles : blockedDisk.files = blockedLoader.sources.take 4 := by
    rw [Disk.files, List.mergeSort_of_pairwise]
    · decide +kernel
    · decide +kernel
  have hsources : ((blockedDisk.loader "/p").without []).sources = blockedLoader.sources := by
    rw [Loader.without, Disk.loader, hfiles]
    decide +kernel
  have hloader : ∀ l : Loader, l.sources = blockedLoader.sources →
      l = ⟨blockedLoader.sources, l.missing⟩ := by
    rintro ⟨sources, missing⟩ h
    rw [← h]
  exact hloader _ hsources

def blockedCode : Code := [18, 12, 3, 111, 117, 116, 1, 1, 2]

theorem link_blocked (hsources : mishaps.sources = []) :
    ∃ r text, blockedProject.link blockedDisk "/p" mishaps = .ok r ∧ r.code = blockedCode ∧
      r.listing = .ok text := by
  have hruns : ((Program.build blockedLoader "/p" false blockedProject.options
      "/p/main.wv").toOption.map fun r => (r.code, r.listing.toOption.isSome)) =
        some (blockedCode, true) := by
    decide +kernel
  obtain ⟨r, hbuild, hvalues⟩ := Option.map_eq_some_iff.mp hruns
  obtain ⟨hcode, hlisting⟩ := Prod.mk.inj hvalues
  obtain ⟨text, htext⟩ := Option.isSome_iff_exists.mp hlisting
  refine ⟨r, text, ?_, hcode, toOption_eq_some_iff.mp htext⟩
  rw [link, hsources, loader_blocked]
  exact toOption_eq_some_iff.mp hbuild

def fullDisk : Mishaps where
  program := some (.draft none ⟨"write", "/p/.out.wvb.tmp", .refused "no space left on device"⟩)

/-- A program that cannot be written stays as it was. -/
theorem failed_build_program_full :
    ∃ e, (blockedProject.buildUnder fullDisk blockedDisk "/p" ⟨"1", ⟨0⟩⟩ []).1 = .error e ∧
      blockedProject.program
        (blockedProject.buildUnder fullDisk blockedDisk "/p" ⟨"1", ⟨0⟩⟩ []).2.2 =
          some (.file "old") := by
  have hdir : Path.isAbsolute "/p" = true := by decide
  have htree : blockedDisk.IsTree := by decide +kernel
  obtain ⟨r, text, hlink, -, -⟩ := link_blocked (show fullDisk.sources = [] from rfl)
  obtain ⟨e, t, hwrite⟩ : ∃ e t, blockedProject.writeProgram r fullDisk
      ⟨blockedDisk, blockedProject.store⟩ = .error e t := ⟨_, _, rfl⟩
  have herror := (buildUnder_of_writeProgram hlink ⟨"1", ⟨0⟩⟩ [] hwrite).1
  refine ⟨e, herror, ?_⟩
  rcases failed_build_program hdir paths_blocked htree herror with ⟨hsame, -⟩ | ⟨r', t₁, t', h⟩
  · rw [hsame]
    decide +kernel
  · obtain ⟨hlink', hwrite', -⟩ := h
    rw [hlink] at hlink'
    cases hlink'
    rw [hwrite] at hwrite'
    cases hwrite'

/-- A program that was linked is written although its listing cannot be. -/
theorem program_replaced_by_failed_build :
    ∃ e, (blockedProject.build blockedDisk "/p" ⟨"1", ⟨0⟩⟩ []).1 = .error e ∧
      blockedProject.program blockedDisk = some (.file "old") ∧
      blockedProject.program (blockedProject.build blockedDisk "/p" ⟨"1", ⟨0⟩⟩ []).2.2 =
        some (.file blockedCode) := by
  obtain ⟨r, text, hlink, hcode, hlisting⟩ :=
    link_blocked (show ({} : Mishaps).sources = [] from rfl)
  have hwrite : blockedProject.writeProgram r {} ⟨blockedDisk, blockedProject.store⟩ =
      .ok () ⟨blockedDisk.set ["p", "out.wvb"] (.file blockedCode), none⟩ := by
    rw [writeProgram, hcode]
    rfl
  have hrest : ∃ e, blockedProject.writeRest r ⟨"1", ⟨0⟩⟩ {}
      ⟨blockedDisk.set ["p", "out.wvb"] (.file blockedCode), none⟩ =
        .error e ⟨blockedDisk.set ["p", "out.wvb"] (.file blockedCode), none⟩ := by
    rw [writeRest, Writing.listing, hlisting]
    exact ⟨_, rfl⟩
  obtain ⟨e, hrest⟩ := hrest
  obtain ⟨herror, hdisk⟩ := buildUnder_of_writeRest hlink [] hwrite hrest
  refine ⟨e, herror, by decide +kernel, ?_⟩
  rw [build, hdisk]
  decide +kernel

end Project

end Splice

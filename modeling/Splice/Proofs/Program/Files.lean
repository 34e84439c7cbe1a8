import Splice.Proofs.Action
import Splice.Proofs.Program.Pool
import Splice.Proofs.Text.Glyphs

/-!
# The files of a program

A namespace stands for a file: it has a location, the imports and enums that the file
declares, and an identifier of its own.  Reading the source of a namespace adds
imports and enums to that namespace only (`Program.Fills`), and nothing that follows
changes them (`Program.SameFiles`).
-/

namespace Splice

namespace Namespace

/-- A namespace as its file gives it, without its names and how far it has come. -/
def file (ns : Namespace) : Namespace :=
  { ns with stage := .created, groups := [], usedEntries := [], references := [], root := none }

/-- A namespace before its source is read: where it is and what its aliases lead to. -/
def place (ns : Namespace) : Namespace := { ns.file with pending := [], enums := [] }

theorem eq_of_file {α : Type} {ns ns' : Namespace} (part : Namespace → α)
    (hpart : ∀ ns, part ns.file = part ns) (h : ns'.file = ns.file) : part ns' = part ns := by
  rw [← hpart ns', h, hpart]

theorem eq_of_place {α : Type} {ns ns' : Namespace} (part : Namespace → α)
    (hpart : ∀ ns, part ns.place = part ns) (h : ns'.place = ns.place) : part ns' = part ns := by
  rw [← hpart ns', h, hpart]

/-- The aliases of a file differ, its enums have different names, and so have the
entries of each enum. -/
structure Tidy (ns : Namespace) : Prop where
  aliases : ns.aliases.Nodup
  enums : (ns.enums.map Enumeration.name).Nodup
  words : ∀ e ∈ ns.enums, Text.IsWord e.name
  entries : ∀ e ∈ ns.enums, (e.entries.map EnumEntry.name).Nodup

def content (ns : Namespace) : List (Text × NamespaceId) × List PendingImport × List Enumeration :=
  (ns.imports, ns.pending, ns.enums)

theorem Tidy.of_content {ns ns' : Namespace} (h : ns.Tidy) (hsame : ns'.content = ns.content) :
    ns'.Tidy := by
  simp only [content, Prod.mk.injEq] at hsame
  obtain ⟨himports, hpending, henums⟩ := hsame
  constructor
  · unfold Namespace.aliases
    rw [himports, hpending]
    exact h.aliases
  · rw [henums]
    exact h.enums
  · rw [henums]
    exact h.words
  · rw [henums]
    exact h.entries

theorem tidy_of_content_eq_nil {ns : Namespace} (h : ns.content = ([], [], [])) : ns.Tidy := by
  simp only [content, Prod.mk.injEq] at h
  obtain ⟨himports, hpending, henums⟩ := h
  constructor
  · simp [Namespace.aliases, himports, hpending]
  · simp [henums]
  · simp [henums]
  · simp [henums]

end Namespace

namespace Program

variable {p p' p'' : Program} {n m : NamespaceId}

structure SameFiles (p p' : Program) : Prop where
  workingDir : p'.workingDir = p.workingDir
  size : p'.namespaces.size = p.namespaces.size
  file : ∀ m, (p'.spaceAt m).file = (p.spaceAt m).file

theorem SameFiles.refl (p : Program) : p.SameFiles p := ⟨rfl, rfl, fun _ => rfl⟩

theorem SameFiles.trans (h : p.SameFiles p') (h' : p'.SameFiles p'') : p.SameFiles p'' where
  workingDir := h'.workingDir.trans h.workingDir
  size := h'.size.trans h.size
  file m := (h'.file m).trans (h.file m)

theorem SameFiles.part {α : Type} (h : p.SameFiles p') (part : Namespace → α)
    (hpart : ∀ ns, part ns.file = part ns) (m : NamespaceId) :
    part (p'.spaceAt m) = part (p.spaceAt m) :=
  Namespace.eq_of_file part hpart (h.file m)

theorem SameFiles.content (h : p.SameFiles p') (m : NamespaceId) :
    (p'.spaceAt m).content = (p.spaceAt m).content :=
  h.part Namespace.content (fun _ => rfl) m

theorem SameFiles.imports (h : p.SameFiles p') (m : NamespaceId) :
    (p'.spaceAt m).imports = (p.spaceAt m).imports :=
  h.part Namespace.imports (fun _ => rfl) m

theorem SameFiles.enums (h : p.SameFiles p') (m : NamespaceId) :
    (p'.spaceAt m).enums = (p.spaceAt m).enums :=
  h.part Namespace.enums (fun _ => rfl) m

theorem sameFiles_modifySpace (p : Program) (n : NamespaceId) {f : Namespace → Namespace}
    (h : ∀ ns, (f ns).file = ns.file) : p.SameFiles (p.modifySpace n f) where
  workingDir := rfl
  size := size_modifySpace f
  file m := spaceAt_modifySpace_same p n m f Namespace.file h

theorem sameFiles_addSymbol (p : Program) (n : NamespaceId) (name : Text) :
    p.SameFiles (p.addSymbol n name).2 where
  workingDir := rfl
  size := size_modifySpace _
  file m := spaceAt_addSymbol_same p n m name Namespace.file fun _ _ => rfl

theorem sameFiles_addReference (p : Program) (n : NamespaceId) (qualifier name member : Text)
    (offset : Int) : p.SameFiles (p.addReference n qualifier name member offset).2 where
  workingDir := rfl
  size := size_modifySpace _
  file m := spaceAt_modifySpace_same _ n m _ Namespace.file fun _ => rfl

theorem sameFiles_addProperty (p : Program) (name : Text) :
    p.SameFiles (p.addProperty name).2 := ⟨rfl, rfl, fun _ => rfl⟩

theorem sameFiles_retainProperty (p : Program) (name : Text) :
    p.SameFiles (p.retainProperty name) := by
  rw [retainProperty_eq]
  exact ⟨rfl, rfl, fun _ => rfl⟩

theorem sameFiles_advance (stage : Stage) :
    Yields (advance n stage) p fun _ p' => p.SameFiles p' := by
  simp only [advance, yields_bind, yields_get]
  split
  · simp
  · simp only [yields_set]
    exact sameFiles_modifySpace p n fun _ => rfl

/-- What reading the source of a namespace leaves of the files: all of the others, and
the place of its own. -/
structure Fills (n : NamespaceId) (p p' : Program) : Prop where
  workingDir : p'.workingDir = p.workingDir
  size : p'.namespaces.size = p.namespaces.size
  place : ∀ m, (p'.spaceAt m).place = (p.spaceAt m).place
  others : ∀ m ≠ n, (p'.spaceAt m).file = (p.spaceAt m).file

theorem SameFiles.fills (h : p.SameFiles p') : Fills n p p' where
  workingDir := h.workingDir
  size := h.size
  place m := by
    unfold Namespace.place
    rw [h.file]
  others m _ := h.file m

theorem Fills.trans (h : Fills n p p') (h' : Fills n p' p'') : Fills n p p'' where
  workingDir := h'.workingDir.trans h.workingDir
  size := h'.size.trans h.size
  place m := (h'.place m).trans (h.place m)
  others m hm := (h'.others m hm).trans (h.others m hm)

theorem Fills.imports (h : Fills n p p') (m : NamespaceId) :
    (p'.spaceAt m).imports = (p.spaceAt m).imports :=
  Namespace.eq_of_place Namespace.imports (fun _ => rfl) (h.place m)

theorem Fills.content (h : Fills n p p') (hm : m ≠ n) :
    (p'.spaceAt m).content = (p.spaceAt m).content :=
  Namespace.eq_of_file Namespace.content (fun _ => rfl) (h.others m hm)

theorem fills_modifySpace (p : Program) (n : NamespaceId) {f : Namespace → Namespace}
    (h : ∀ ns, (f ns).place = ns.place) : Fills n p (p.modifySpace n f) where
  workingDir := rfl
  size := size_modifySpace f
  place m := spaceAt_modifySpace_same p n m f Namespace.place h
  others m hm := by
    rw [spaceAt_modifySpace, if_neg (fun hc => hm hc.1.symm)]

theorem fills_enactOne (p : Program) (n : NamespaceId) (d : Declaration) :
    Fills n p (enactOne n p d) := by
  cases d with
  | symbol name => exact (sameFiles_addSymbol p n name).fills
  | property name => exact (sameFiles_addProperty p name).fills
  | reference qualifier name member offset =>
      exact (sameFiles_addReference p n qualifier name member offset).fills
  | import_ qualifier path offset => exact fills_modifySpace p n fun _ => rfl
  | generatedAlias => exact SameFiles.fills ⟨rfl, rfl, fun _ => rfl⟩
  | enum name offset => exact fills_modifySpace p n fun _ => rfl
  | entry enum entry => exact fills_modifySpace p n fun _ => rfl
  | retain name => exact (sameFiles_retainProperty p name).fills

theorem fills_enact (p : Program) (n : NamespaceId) (ds : List Declaration) :
    Fills n p (p.enact n ds) := by
  induction ds generalizing p with
  | nil => exact (SameFiles.refl p).fills
  | cons d rest ih => exact (fills_enactOne p n d).trans (ih (enactOne n p d))

theorem spaceAt_addPending (hn : n < p.namespaces.size) (qualifier path : Text)
    (offset : Int) :
    (p.addPending n qualifier path offset).spaceAt n =
      { p.spaceAt n with
        pending := (p.spaceAt n).pending ++
          [⟨qualifier, (p.spaceAt n).importLocation path, offset⟩] } := by
  rw [addPending, spaceAt_modifySpace, if_pos ⟨rfl, hn⟩]

theorem spaceAt_addEnum (hn : n < p.namespaces.size) (name : Text) (offset : Int) :
    (p.addEnum n name offset).spaceAt n =
      { p.spaceAt n with enums := (p.spaceAt n).enums ++ [⟨name, offset, []⟩] } := by
  rw [addEnum, spaceAt_modifySpace, if_pos ⟨rfl, hn⟩]

theorem spaceAt_addEntry (hn : n < p.namespaces.size) (enum : Text) (entry : EnumEntry) :
    (p.addEntry n enum entry).spaceAt n =
      { p.spaceAt n with
        enums := (p.spaceAt n).enums.map fun e =>
          if e.name == enum then e.addEntry entry else e } := by
  rw [addEntry, spaceAt_modifySpace, if_pos ⟨rfl, hn⟩]

end Program

namespace Namespace

variable {ns : Namespace}

theorem nodup_append_singleton {α : Type} {xs : List α} {x : α} (h : xs.Nodup) (hx : x ∉ xs) :
    (xs ++ [x]).Nodup := by
  refine List.Nodup.append h (List.nodup_singleton x) ?_
  rw [List.disjoint_singleton]
  exact hx

theorem Tidy.addPending (h : ns.Tidy) {i : PendingImport} (hi : i.qualifier ∉ ns.aliases) :
    Tidy { ns with pending := ns.pending ++ [i] } where
  aliases := by
    have happend : Namespace.aliases { ns with pending := ns.pending ++ [i] } =
        ns.aliases ++ [i.qualifier] := by
      simp [Namespace.aliases]
    rw [happend]
    exact nodup_append_singleton h.aliases hi
  enums := h.enums
  words := h.words
  entries := h.entries

theorem Tidy.addEnum (h : ns.Tidy) {name : Text} (hname : name ∉ ns.enums.map Enumeration.name)
    (hword : Text.IsWord name) (offset : Int) :
    Tidy { ns with enums := ns.enums ++ [⟨name, offset, []⟩] } where
  aliases := h.aliases
  enums := by
    rw [List.map_append]
    exact nodup_append_singleton h.enums hname
  words e he := by
    rcases List.mem_append.mp he with hold | hnew
    · exact h.words e hold
    · rw [List.mem_singleton.mp hnew]
      exact hword
  entries e he := by
    rcases List.mem_append.mp he with hold | hnew
    · exact h.entries e hold
    · rw [List.mem_singleton.mp hnew]
      exact List.nodup_nil

theorem map_name_addEntry (enums : List Enumeration) (enum : Text) (entry : EnumEntry) :
    (enums.map fun e => if e.name == enum then e.addEntry entry else e).map Enumeration.name =
      enums.map Enumeration.name := by
  rw [List.map_map]
  refine List.map_congr_left fun e _ => ?_
  rw [Function.comp_apply]
  split <;> rfl

theorem Tidy.addEntry (h : ns.Tidy) {enum : Text} {entry : EnumEntry}
    (hentry : ∀ e ∈ ns.enums, e.name = enum → entry.name ∉ e.entries.map EnumEntry.name) :
    Tidy { ns with
      enums := ns.enums.map fun e => if e.name == enum then e.addEntry entry else e } where
  aliases := h.aliases
  enums := by
    rw [map_name_addEntry]
    exact h.enums
  words e he := by
    obtain ⟨x, hx, rfl⟩ := List.mem_map.mp he
    split
    · exact h.words x hx
    · exact h.words x hx
  entries e he := by
    obtain ⟨x, hx, rfl⟩ := List.mem_map.mp he
    split
    · next hname =>
        rw [Enumeration.addEntry, List.map_append]
        exact nodup_append_singleton (h.entries x hx) (hentry x hx (by simpa using hname))
    · exact h.entries x hx

end Namespace

end Splice

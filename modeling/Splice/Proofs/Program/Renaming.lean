import Splice.Proofs.Program.Mangling
import Splice.Tree.Generate

/-!
# The table of numbers

The table that mangling hands out has one entry for each name that is given a number.
Every symbol of the program belongs to such a name, and is then written as the number
of its entry instead of the literal text, or it is a retained property and keeps its
text.  As long as there are no more names than 64-bit numbers the table can be read
backwards.
-/

namespace Splice

def MangleEntry.literal (e : MangleEntry) : Text :=
  match e.kind with
  | .namespaced => Symbol.idOf e.space e.name
  | _ => e.name

/-- What is written for a symbol without numbers, told from what is written for it
with numbers. -/
def MangleEntry.restore (table : List MangleEntry) : Instr → Instr
  | .number n =>
      match table.find? (·.code == n) with
      | some e => .string e.literal
      | none => .number n
  | i => i

/-- Two ways to write one symbol: by its text and by its number, or by its text both
times if it is retained. -/
def MangleEntry.Renamed (table : List MangleEntry) (retained : Text → Bool) (x y : Instr) :
    Prop :=
  (∃ e ∈ table, x = .string e.literal ∧ y = .number e.code) ∨
    ∃ name, retained name = true ∧ x = .string name ∧ y = .string name

theorem MangleEntry.Renamed.restore_eq {table : List MangleEntry} {retained : Text → Bool}
    {x y : Instr} (h : Renamed table retained x y)
    (hcodes : (table.map MangleEntry.code).Nodup) : restore table y = x := by
  rcases h with ⟨e, he, rfl, rfl⟩ | ⟨name, -, rfl, rfl⟩
  · simp only [restore]
    cases hfind : table.find? (fun e' => e'.code == e.code) with
    | none =>
        have hnone := List.find?_eq_none.mp hfind e he
        simp at hnone
    | some e' =>
        have hcode : e'.code = e.code := by simpa using List.find?_some hfind
        have heq : e' = e :=
          List.inj_on_of_nodup_map hcodes (List.mem_of_find?_eq_some hfind) he hcode
        rw [heq]
  · rfl

namespace Program

variable {p : Program} {n : NamespaceId} {s : SymbolId} {name : Text}
  {spaces : List NamespaceId}

theorem mem_mangle_fst {e : MangleEntry} :
    e ∈ (p.mangle spaces).1 ↔
      ∃ g code, (g, code) ∈ (p.manglePool spaces).zipIdx ∧ e = p.mangleEntry g code := by
  rw [mangle]
  simp only [List.mem_map, Prod.exists]
  constructor
  · rintro ⟨g, code, hmem, rfl⟩
    exact ⟨g, code, hmem, rfl⟩
  · rintro ⟨g, code, hmem, rfl⟩
    exact ⟨g, code, hmem, rfl⟩

theorem map_code_mangle (p : Program) (spaces : List NamespaceId) :
    (p.mangle spaces).1.map MangleEntry.code =
      (List.range (p.mangle spaces).1.length).map Int64.ofNat := by
  have hindices : (p.manglePool spaces).zipIdx.map Prod.snd =
      List.range (p.manglePool spaces).length := by
    rw [List.zipIdx_map_snd, List.range_eq_range']
  have hlength : (p.mangle spaces).1.length = (p.manglePool spaces).length := by
    simp [mangle]
  rw [hlength, ← hindices, List.map_map, mangle, List.map_map]
  rfl

/-- No two names share a number. -/
theorem nodup_codes (h : (p.mangle spaces).1.length ≤ 2 ^ 64) :
    ((p.mangle spaces).1.map MangleEntry.code).Nodup := by
  rw [map_code_mangle]
  apply List.Nodup.map_on _ List.nodup_range
  intro i hi j hj hij
  rw [List.mem_range] at hi hj
  have hwords := congrArg (fun x : Int64 => x.toUInt64.toNat) hij
  simp only [Int64.toUInt64_ofNat', UInt64.toNat_ofNat'] at hwords
  omega

theorem operand_of_number_eq_none {x : Symbol} (h : x.number = none) :
    x.operand = .string x.literal := by
  rw [Symbol.operand, h]

theorem operand_mangle {x : Symbol} (h : x.takesNumber = true) (k : Int64) :
    (x.mangle k).operand = .number k := by
  rw [Symbol.mangle, if_pos h]
  rfl

/-- The symbols of a group are one symbol. -/
theorem Pristine.exists_symbol_eq (hp : p.Pristine) {g : NameGroup} (hg : p.IsGroup g) :
    ∃ x : Symbol, (∀ s ∈ g.members, p.symbol s = x) ∧ x.number = none ∧
      (x.kind = .namespaced ∧ x.retained = false ∧ x.literal = Symbol.idOf g.space g.name ∨
        x.kind = .property ∧ x.retained = p.isRetainedName g.name ∧ x.literal = g.name) := by
  rcases hg with ⟨n, hn, hspace, hmembers⟩ | ⟨hspace, hmembers⟩
  · refine ⟨⟨g.name, (p.spaceAt n).id, .namespaced, false, none⟩, ?_, rfl,
      Or.inl ⟨rfl, rfl, ?_⟩⟩
    · intro s hs
      rw [hmembers] at hs
      exact hp.symbol_eq_namespaced hs
    · rw [hspace]
      rfl
  · refine ⟨Symbol.ofProperty g.name (p.isRetainedName g.name), ?_, rfl, Or.inr ⟨rfl, rfl, rfl⟩⟩
    intro s hs
    rw [hmembers] at hs
    exact hp.property_eq g.name s hs

theorem isMangled_eq {g : NameGroup} {x : Symbol} (h : ∀ s ∈ g.members, p.symbol s = x)
    (hs : s ∈ g.members) : p.isMangled g = !x.retained := by
  unfold isMangled
  cases hmembers : g.members with
  | nil =>
      rw [hmembers] at hs
      cases hs
  | cons leading rest =>
      dsimp only
      rw [h leading]
      rw [hmembers]
      exact List.mem_cons_self ..

theorem kind_mangleEntry {g : NameGroup} {x : Symbol} (h : ∀ s ∈ g.members, p.symbol s = x)
    (hs : s ∈ g.members) (code : Nat) : (p.mangleEntry g code).kind = x.kind := by
  unfold mangleEntry
  cases hmembers : g.members with
  | nil =>
      rw [hmembers] at hs
      cases hs
  | cons leading rest =>
      dsimp only [List.headD_cons]
      rw [h leading]
      rw [hmembers]
      exact List.mem_cons_self ..

/-- With numbers, a symbol of a group is written as the number of the group's entry, or
as before if it is retained. -/
theorem Pristine.renamed (hp : p.Pristine) (hspaces : ∀ n ∈ spaces, n < p.namespaces.size)
    (hnodup : spaces.Nodup) {g : NameGroup} (hg : g ∈ p.nameGroups spaces) (hs : s ∈ g.members) :
    MangleEntry.Renamed (p.mangle spaces).1 p.isRetainedName (p.operand s)
      ((p.mangle spaces).2.operand s) := by
  have hgroup := hp.isGroup hspaces hg
  obtain ⟨x, hsymbol, hnumber, hkind⟩ := hp.exists_symbol_eq hgroup
  have hplain : p.operand s = .string x.literal := by
    rw [operand, hsymbol s hs, operand_of_number_eq_none hnumber]
  have hmangled := isMangled_eq hsymbol hs
  cases hretained : x.retained with
  | false =>
      rw [hretained, Bool.not_false] at hmangled
      left
      obtain ⟨code, hcode⟩ := exists_mem_zipIdx (mem_manglePool.mpr ⟨hg, hmangled⟩)
      refine ⟨p.mangleEntry g code, mem_mangle_fst.mpr ⟨g, code, hcode, rfl⟩, ?_, ?_⟩
      · rw [hplain]
        have hentry := kind_mangleEntry hsymbol hs code
        rcases hkind with ⟨hkind, -, hliteral⟩ | ⟨hkind, -, hliteral⟩
        · rw [MangleEntry.literal, hentry, hkind, hliteral]
          rfl
        · rw [MangleEntry.literal, hentry, hkind, hliteral]
          rfl
      · have htakes : x.takesNumber = true := by
          rcases hkind with ⟨hkind, -, -⟩ | ⟨hkind, -, -⟩
          · simp [Symbol.takesNumber, hretained, hkind]
          · simp [Symbol.takesNumber, hretained, hkind]
        rw [operand, hp.symbol_mangle hspaces hnodup hcode hs, hsymbol s hs,
          operand_mangle htakes]
        rfl
  | true =>
      rw [hretained, Bool.not_true] at hmangled
      right
      have hunchanged : (p.mangle spaces).2.symbol s = p.symbol s := by
        rw [mangle_snd]
        apply symbol_mangleGroups_of_not_mem
        intro h hh hmem
        have hpool : h.1 ∈ p.manglePool spaces := by
          rw [← List.zipIdx_map_fst 0 (p.manglePool spaces)]
          exact List.mem_map_of_mem hh
        have hpooled := mem_manglePool.mp hpool
        have hmembers := hp.members_eq (hp.isGroup hspaces hpooled.1) hgroup hmem hs
        have hsame : p.isMangled h.1 = p.isMangled g := by
          rw [isMangled, isMangled, hmembers]
        rw [hsame, hmangled] at hpooled
        cases hpooled.2
      rcases hkind with ⟨-, hfree, -⟩ | ⟨-, hname, hliteral⟩
      · rw [hretained] at hfree
        cases hfree
      · refine ⟨g.name, ?_, ?_, ?_⟩
        · rw [← hname, hretained]
        · rw [hplain, hliteral]
        · rw [operand, hunchanged, ← operand, hplain, hliteral]

theorem Pristine.renamed_of_mem_symbolsOf (hp : p.Pristine)
    (hspaces : ∀ n ∈ spaces, n < p.namespaces.size) (hnodup : spaces.Nodup) (hn : n ∈ spaces)
    (hs : s ∈ p.symbolsOf n name) :
    MangleEntry.Renamed (p.mangle spaces).1 p.isRetainedName (p.operand s)
      ((p.mangle spaces).2.operand s) := by
  obtain ⟨g, hg, -, hmem⟩ := Groups.exists_mem_of_members hs
  have hgroup : (⟨(p.spaceAt n).id, g.1, g.2⟩ : NameGroup) ∈ p.nameGroups spaces :=
    mem_nameGroups.mpr (Or.inl ⟨n, hn, rfl, hg⟩)
  exact hp.renamed hspaces hnodup hgroup hmem

theorem Pristine.renamed_of_mem_properties (hp : p.Pristine)
    (hspaces : ∀ n ∈ spaces, n < p.namespaces.size) (hnodup : spaces.Nodup)
    (hs : s ∈ p.properties.members name) :
    MangleEntry.Renamed (p.mangle spaces).1 p.isRetainedName (p.operand s)
      ((p.mangle spaces).2.operand s) := by
  obtain ⟨g, hg, -, hmem⟩ := Groups.exists_mem_of_members hs
  have hgroup : (⟨[], g.1, g.2⟩ : NameGroup) ∈ p.nameGroups spaces :=
    mem_nameGroups.mpr (Or.inr ⟨rfl, hg⟩)
  exact hp.renamed hspaces hnodup hgroup hmem

/-- Retained properties are given no number. -/
theorem Pristine.isRetainedName_of_mem (hp : p.Pristine)
    (hspaces : ∀ n ∈ spaces, n < p.namespaces.size) {e : MangleEntry}
    (he : e ∈ (p.mangle spaces).1) (hkind : e.kind = .property) :
    p.isRetainedName e.name = false := by
  obtain ⟨g, code, hmem, rfl⟩ := mem_mangle_fst.mp he
  have hpool : g ∈ p.manglePool spaces := List.fst_mem_of_mem_zipIdx hmem
  obtain ⟨hg, hmangled⟩ := mem_manglePool.mp hpool
  obtain ⟨x, hsymbol, -, hx⟩ := hp.exists_symbol_eq (hp.isGroup hspaces hg)
  obtain ⟨s, hs⟩ : ∃ s, s ∈ g.members := by
    cases hmembers : g.members with
    | nil =>
        rw [isMangled, hmembers] at hmangled
        cases hmangled
    | cons leading rest => exact ⟨leading, List.mem_cons_self ..⟩
  rw [kind_mangleEntry hsymbol hs] at hkind
  rw [isMangled_eq hsymbol hs, Bool.not_eq_true'] at hmangled
  rcases hx with ⟨hspaced, -, -⟩ | ⟨-, hretained, -⟩
  · rw [hkind] at hspaced
    cases hspaced
  · change p.isRetainedName g.name = false
    rw [← hretained, hmangled]

end Program

end Splice

import WorstCase.Batch.Job
import WorstCase.Proofs.Scan.Sighting

/-!
# Where problems are written

The problem of an input is written to the directory of the input, taken below another root if one is
given, under the stem of its name. So the output of an input is a clean path with the place of the
input in it (`Batch.exists_outputPath`), and two inputs have the same output just if they are in the
same directory and have the same stem (`Batch.outputPath_eq`).
-/

namespace WorstCase

open WorstCase.Path (IsName)

/-! ### Stems -/

namespace Scan

theorem prefix_dropExtension (name : String) : (Path.dropExtension name).toList <+: name.toList := by
  rw [Path.dropExtension, String.toList_ofList]
  exact List.take_prefix _ _

/-- A stem is a beginning of the name. -/
theorem prefix_stem (name : String) : (stem name).toList <+: name.toList := by
  rw [stem]
  split
  · exact (prefix_dropExtension _).trans (prefix_dropExtension _)
  · exact prefix_dropExtension _

end Scan

namespace Batch

open Scan (Sighting Found)

variable {fs : Files} {here base d place : List String} {f g : Found} {directory : String}

/-- The name of the output of an input. -/
def outputName (f : Found) : String := Scan.stem (Path.base f.full) ++ problemExtension

theorem outputName_inj (h : outputName f = outputName g) :
    Scan.stem (Path.base f.full) = Scan.stem (Path.base g.full) := by
  have htext := congrArg String.toList h
  rw [outputName, outputName, String.toList_append, String.toList_append] at htext
  exact String.toList_inj.mp (List.append_cancel_right htext)

/-- A place consists of a directory and a name. -/
theorem exists_place (h : Sighting fs here base d place f) :
    ∃ names x, place = names ++ [x] ∧ Path.base f.full = x ∧ Path.base f.path = x ∧
      Path.directory f.full = Path.ofComponents true (base ++ names) ∧
      Path.directory f.path = Path.ofComponents false names := by
  obtain ⟨names, x, rfl⟩ := (List.eq_nil_or_concat' place).resolve_left h.ne_nil
  have hfull := h.tidy_full
  have hpath : Path.Tidy false (names ++ [x]) := .of_names h.names
  rw [← List.append_assoc] at hfull
  refine ⟨names, x, rfl, ?_, ?_, ?_, ?_⟩
  · rw [h.full, ← List.append_assoc, Path.base_ofComponents hfull]
  · rw [h.path, Path.base_ofComponents hpath]
  · rw [h.full, ← List.append_assoc, Path.directory_ofComponents hfull]
  · rw [h.path, Path.directory_ofComponents hpath]

theorem isName_outputName (h : Sighting fs here base d place f) :
    IsName (outputName f) ∧ '/' ∉ (outputName f).toList := by
  obtain ⟨names, x, rfl, hbase, -⟩ := exists_place h
  have hx := h.names x (List.mem_append_right _ List.mem_cons_self)
  have htext : (outputName f).toList = (Scan.stem x).toList ++ problemExtension.toList := by
    rw [outputName, hbase, String.toList_append]
  -- a name that is not one is shorter than the extension
  have hlong : 5 ≤ (outputName f).toList.length := by
    rw [htext, List.length_append]
    exact Nat.le_add_left _ _
  refine ⟨⟨?_, ?_, ?_⟩, ?_⟩
  · intro heq
    exact absurd hlong (heq ▸ by decide)
  · intro heq
    exact absurd hlong (heq ▸ by decide)
  · intro heq
    exact absurd hlong (heq ▸ by decide)
  · rw [htext, List.mem_append, not_or]
    exact ⟨fun hslash => hx.2 ((Scan.prefix_stem x).subset hslash), by decide⟩

/-- **The output of an input** is its place, with another name at the end, below the directory of
all outputs. -/
theorem exists_outputPath (hbase : Path.Tidy true base) (directory : String) :
    ∃ absolute pre, Path.Tidy absolute pre ∧
      ∀ {fs here d place f}, Sighting fs here base d place f →
        outputPath directory f =
          Path.ofComponents absolute (pre ++ (place.dropLast ++ [outputName f])) := by
  by_cases hdirectory : directory = ""
  · refine ⟨true, base, hbase, fun {fs here d place f} h => ?_⟩
    obtain ⟨names, x, rfl, -, -, hfull, -⟩ := exists_place h
    have hnames : ∀ c ∈ names, IsName c ∧ '/' ∉ c.toList := fun c hc =>
      h.names c (List.mem_append_left _ hc)
    rw [outputPath, if_pos hdirectory, hfull, List.dropLast_concat, ← List.append_assoc]
    exact Path.join_ofComponents (hbase.append hnames)
      (List.forall_mem_singleton.mpr (isName_outputName h))
  · refine ⟨Path.isAbsolute directory, Path.cleanComponents directory,
      Path.tidy_cleanComponents directory, fun {fs here d place f} h => ?_⟩
    obtain ⟨names, x, rfl, -, -, -, hpath⟩ := exists_place h
    have hnames : ∀ c ∈ names, IsName c ∧ '/' ∉ c.toList := fun c hc =>
      h.names c (List.mem_append_left _ hc)
    rw [outputPath, if_neg hdirectory, hpath, List.dropLast_concat, ← List.append_assoc]
    exact Path.join_middle hdirectory hnames (List.forall_mem_singleton.mpr (isName_outputName h))

/-- An output is a clean path with a name at its end. -/
theorem tidy_outputPath (h : Sighting fs here base d place f) (directory : String) :
    ∃ absolute cs, Path.Tidy absolute (cs ++ [outputName f]) ∧
      outputPath directory f = Path.ofComponents absolute (cs ++ [outputName f]) := by
  obtain ⟨absolute, pre, hpre, hout⟩ := exists_outputPath h.tidy directory
  have hnames : ∀ c ∈ place.dropLast, IsName c ∧ '/' ∉ c.toList := fun c hc =>
    h.names c (List.dropLast_subset _ hc)
  refine ⟨absolute, pre ++ place.dropLast, ?_, by rw [hout h, List.append_assoc]⟩
  exact (hpre.append hnames).append (List.forall_mem_singleton.mpr (isName_outputName h))

theorem outputPath_ne_empty (h : Sighting fs here base d place f) (directory : String) :
    outputPath directory f ≠ "" := by
  obtain ⟨absolute, cs, htidy, hout⟩ := tidy_outputPath h directory
  rw [hout]
  exact mt String.toList_eq_nil_iff.mpr (Path.toList_ofComponents_ne_nil htidy)

/-- **Inputs share an output** just if they are in the same directory and have the same stem. -/
theorem outputPath_eq {place' : List String} (hf : Sighting fs here base d place f)
    (hg : Sighting fs here base d place' g) (directory : String) :
    outputPath directory f = outputPath directory g ↔
      Path.directory f.path = Path.directory g.path ∧
        Scan.stem (Path.base f.path) = Scan.stem (Path.base g.path) := by
  obtain ⟨absolute, pre, hpre, hout⟩ := exists_outputPath hf.tidy directory
  obtain ⟨names, x, rfl, hbase, hbase', -, hdirectory⟩ := exists_place hf
  obtain ⟨names', x', rfl, hbaseg, hbaseg', -, hdirectoryg⟩ := exists_place hg
  have hnames := hf.names
  have hnames' := hg.names
  rw [List.forall_mem_append] at hnames hnames'
  have htidy := hpre.append (List.forall_mem_append.mpr
    ⟨hnames.1, List.forall_mem_singleton.mpr (isName_outputName hf)⟩)
  have htidy' := hpre.append (List.forall_mem_append.mpr
    ⟨hnames'.1, List.forall_mem_singleton.mpr (isName_outputName hg)⟩)
  rw [hout hf, hout hg, List.dropLast_concat, List.dropLast_concat, hdirectory, hdirectoryg, hbase',
    hbaseg']
  constructor
  · intro heq
    obtain ⟨rfl, hname⟩ := List.append_singleton_inj.mp (List.append_cancel_left
      (Path.ofComponents_injective htidy htidy' heq))
    have hstem := outputName_inj hname
    rw [hbase, hbaseg] at hstem
    exact ⟨rfl, hstem⟩
  · rintro ⟨hplace, hstem⟩
    obtain rfl := Path.ofComponents_injective (.of_names hnames.1) (.of_names hnames'.1) hplace
    rw [outputName, outputName, hbase, hbaseg, hstem]

end Batch

end WorstCase

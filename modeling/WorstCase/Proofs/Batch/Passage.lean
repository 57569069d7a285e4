import WorstCase.Proofs.Batch.Course

/-!
# One input in the course of a batch

What becomes of an input is settled in its turn. The jobs of the other inputs come before it or
after it; they do not change what is remembered of it, and all that they write are their own
problems (`Batch.Passage`). Every input that a scan finds has such a passage
(`Batch.exists_passage`), and a problem that is delivered in it stays in its file unless another one
is written there (`Batch.locate_of_delivered`).
-/

namespace WorstCase.Batch

open Files (Grows)
open Scan (Found)

variable {o : PipelineOptions} {b : BatchOptions} {logger : Option Log.Logger} {canceled : Bool}
  {root : String} {w w' : World} {inputs above : List Found} {f : Found} {item : BatchItem}

/-- The items of the other inputs. -/
def others (items : List BatchItem) (input : String) : List BatchItem :=
  items.filter fun j => j.input ≠ input

/-- What comes before an item and after it are the items of the other inputs. -/
theorem mem_others {items items' : List BatchItem}
    (h : ((items ++ item :: items').map (·.input)).Nodup) :
    ∀ j ∈ items ++ items', j ∈ others (items ++ item :: items') item.input := by
  rw [List.map_append, List.map_cons, List.nodup_middle, List.nodup_cons, ← List.map_append] at h
  refine fun j hj => List.mem_filter.mpr ⟨?_, decide_eq_true fun heq => ?_⟩
  · exact List.perm_middle.symm.subset (List.mem_cons_of_mem _ hj)
  · exact h.1 (heq ▸ List.mem_map_of_mem hj)

theorem writtenFor_mono {items items' : List BatchItem} (h : ∀ i ∈ items, i ∈ items') (w : World) :
    writtenFor items w ⊆ writtenFor items' w := by
  rintro q ⟨i, hi, hq⟩
  exact ⟨i, h i hi, hq⟩

/-- What is delivered stays until something else is written there. -/
theorem locate_of_delivered {contents : ByteArray} {path : String} {place : List String}
    (h : w.files.locate .look w.here path = .ok ⟨place, some (.file contents)⟩)
    {written : Set (List String)} (hgrows : Grows Set.univ written w.files w'.files)
    (hhere : w'.here = w.here) :
    ∃ c, w'.files.locate .look w'.here path = .ok ⟨place, some (.file c)⟩ ∧
      (place ∉ written → c = contents) := by
  have hfollows := hgrows.locate .look w.here path
  rw [h] at hfollows
  obtain ⟨e, he, c, rfl, hc⟩ := hfollows
  exact ⟨c, by rw [hhere, he], hc⟩

/-- An input that a scan finds has an output. -/
theorem outputPath_ne_of_scan (hfs : w.files.WellFormed)
    (hscan : ((Scan.scan (scanOptions b) root).run ({} : Tracker) w).1 = .ok inputs)
    (directory : String) : ∀ f ∈ inputs, outputPath directory f ≠ "" := by
  obtain ⟨-, ⟨base, d, hsighting⟩, -⟩ := Scan.sightings hfs hscan
  exact fun f hf => (hsighting f hf).elim fun _ h => outputPath_ne_empty h directory

/-- How an input passes through the jobs of a batch: its turn, and what the others do before it and
after it. -/
structure Passage (o : PipelineOptions) (b : BatchOptions) (logger : Option Log.Logger)
    (canceled : Bool) (root : String) (w : World) (inputs above : List Found) (f : Found)
    (item : BatchItem) : Prop where
  turn : Turn o b canceled f (course o b logger canceled root w above).2 item
    (course o b logger canceled root w (above ++ [f])).2
  mem : item ∈ (course o b logger canceled root w inputs).1
  unique : ∀ i ∈ (course o b logger canceled root w inputs).1, i.input = f.path → i = item
  find_front : (course o b logger canceled root w above).2.1.find? f.full =
    (Tracker.ofStore (w.files.read w.here) (store b root)).find? f.full
  find_back : (course o b logger canceled root w inputs).2.1.find? f.full =
    (course o b logger canceled root w (above ++ [f])).2.1.find? f.full
  here_front : (course o b logger canceled root w above).2.2.here = w.here
  here_back : (course o b logger canceled root w inputs).2.2.here =
    (course o b logger canceled root w (above ++ [f])).2.2.here
  /-- Only the problems of other inputs are written before the turn, -/
  grows_front : Grows Set.univ
    (writtenFor (others (course o b logger canceled root w inputs).1 f.path)
      (course o b logger canceled root w inputs).2.2)
    w.files (course o b logger canceled root w above).2.2.files
  /-- and after it. -/
  grows_back : Grows Set.univ
    (writtenFor (others (course o b logger canceled root w inputs).1 f.path)
      (course o b logger canceled root w inputs).2.2)
    (course o b logger canceled root w (above ++ [f])).2.2.files
    (course o b logger canceled root w inputs).2.2.files

/-- **Every input passes through the jobs.** -/
theorem exists_passage (o : PipelineOptions) (logger : Option Log.Logger) (canceled : Bool)
    (hfs : w.files.WellFormed)
    (hscan : ((Scan.scan (scanOptions b) root).run ({} : Tracker) w).1 = .ok inputs)
    (hf : f ∈ inputs) :
    ∃ above below item, inputs = above ++ f :: below ∧
      Passage o b logger canceled root w inputs above f item := by
  obtain ⟨-, ⟨base, d, hsighting⟩, hpaths⟩ := Scan.sightings hfs hscan
  have hfulls := Scan.nodup_full hsighting hpaths
  have houtput := outputPath_ne_of_scan hfs hscan b.outputDirectory
  obtain ⟨above, below, rfl⟩ := List.append_of_mem hf
  have habove : ∀ g ∈ above, outputPath b.outputDirectory g ≠ "" := fun g hg =>
    houtput g (List.mem_append_left _ hg)
  have hbelow : ∀ g ∈ below, outputPath b.outputDirectory g ≠ "" := fun g hg =>
    houtput g (List.mem_append_right _ (List.mem_cons_of_mem _ hg))
  rw [List.map_append, List.map_cons, List.nodup_middle, List.nodup_cons, List.mem_append,
    not_or] at hfulls
  obtain ⟨item, items, hturn, hall, hback, hback_here⟩ :=
    course_split o logger canceled root w houtput
  obtain ⟨hfront_here, hfront⟩ := course_grows o logger canceled root w habove
  have hinputs := map_input_course o logger canceled root w houtput
  have hfind_back : (course o b logger canceled root w (above ++ f :: below)).2.1.find? f.full =
      (course o b logger canceled root w (above ++ [f])).2.1.find? f.full := by
    rw [List.append_cons, course_append]
    exact find?_runJobs _ _ _ _ _ hbelow hfulls.1.2
  have hother := mem_others (hall ▸ hinputs ▸ hpaths)
  rw [← hall, hturn.item_eq.1] at hother
  have hmem : item ∈ (course o b logger canceled root w (above ++ f :: below)).1 :=
    hall ▸ List.mem_append_right _ List.mem_cons_self
  have hwhole : Grows Set.univ Set.univ (course o b logger canceled root w above).2.2.files
      (course o b logger canceled root w (above ++ f :: below)).2.2.files :=
    (hturn.grows.mono subset_rfl (Set.subset_univ _)).trans
      (hback.mono subset_rfl (Set.subset_univ _))
  exact ⟨above, below, item, rfl,
    { turn := hturn
      mem := hmem
      unique := fun i hi heq =>
        List.inj_on_of_nodup_map (hinputs ▸ hpaths) hi hmem (heq.trans hturn.item_eq.1.symm)
      find_front := find?_course o logger canceled root w habove hfulls.1.1
      find_back := hfind_back
      here_front := hfront_here
      here_back := hback_here
      grows_front := hfront.mono subset_rfl
        ((writtenFor_subset hwhole (hback_here.trans hturn.here) _).trans
          (writtenFor_mono (fun j hj => hother j (List.mem_append_left _ hj)) _))
      grows_back := hback.mono subset_rfl
        (writtenFor_mono (fun j hj => hother j (List.mem_append_right _ hj)) _) }⟩

end WorstCase.Batch

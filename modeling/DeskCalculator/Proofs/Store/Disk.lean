import DeskCalculator.Store.Disk

/-! A file that was written is read back: the way to it leads through directories, none of which stands where
the file is put. -/
namespace DeskCalculator

theorem getElem?_insert_of_ne {α β : Type} {cmp : α → α → Ordering} [Std.TransCmp cmp] [Std.LawfulEqCmp cmp]
    {key other : α} (hne : other ≠ key) (values : Std.TreeMap α β cmp) (value : β) :
    (values.insert key value)[other]? = values[other]? := by
  rw [Std.TreeMap.getElem?_insert, if_neg]
  rw [Std.LawfulEqCmp.compare_eq_iff_eq]
  exact hne.symm

namespace Disk

variable {disk : Disk} {place place' : Place} {names : List String}

theorem node?_put (hplace : place ≠ []) (node : Node) : (disk.put place node).node? place = some node := by
  rw [node?, if_neg hplace, put, Std.TreeMap.getElem?_insert_self]

theorem node?_put_of_ne (hne : place' ≠ place) (node : Node) :
    (disk.put place node).node? place' = disk.node? place' := by
  rw [node?, node?, put, getElem?_insert_of_ne hne]

/-- A target under which a file can be written. -/
inductive Target.Writable : Target → Place → Prop
  | file {place : Place} {content : ByteArray} : Writable (.file place content) place
  | vacant {place : Place} : Writable (.vacant place) place

theorem node?_of_writable {source : Place} (h : (disk.follow source names).Writable place) :
    disk.node? place ≠ some .directory := by
  fun_induction follow disk source names with
  | case1 | case3 | case6 | case8 => cases h
  | case2 source rest ih => exact ih h
  | case4 source name rest hname hlong hnode ih => exact ih h
  | case5 source name hname hlong content hnode =>
    cases h
    simp [hnode]
  | case7 source name hname hlong hnode =>
    cases h
    simp [hnode]

theorem follow_put {source : Place} (h : (disk.follow source names).Writable place) (content : ByteArray) :
    (disk.put place (.file content)).follow source names = .file place content := by
  -- the last name of the way is the one that the file gets
  have hlast {source : Place} {name : String} (hname : name ≠ Path.above) (hlong : ¬ isTooLong name = true) :
      (disk.put (source ++ [name]) (.file content)).follow source [name] = .file (source ++ [name]) content := by
    rw [follow, if_neg hname, if_neg hlong, node?_put (by simp)]
    rfl
  fun_induction follow disk source names with
  | case1 | case3 | case6 | case8 => cases h
  | case2 source rest ih =>
    rw [follow, if_pos rfl]
    exact ih h
  | case4 source name rest hname hlong hnode ih =>
    have hne : source ++ [name] ≠ place := by
      rintro rfl
      exact node?_of_writable h hnode
    rw [follow, if_neg hname, if_neg hlong, node?_put_of_ne hne, hnode]
    exact ih h
  | case5 source name hname hlong =>
    cases h
    exact hlast hname hlong
  | case7 source name hname hlong =>
    cases h
    exact hlast hname hlong

theorem write?_eq_some {path : Path} {content : ByteArray} {written : Disk}
    (h : disk.write? path content = some written) :
    ∃ place, (disk.find path).Writable place ∧ written = disk.put place (.file content) := by
  unfold write? at h
  split at h
  · next place old hfind => exact ⟨place, hfind ▸ .file, (Option.some.inj h).symm⟩
  · next place hfind => exact ⟨place, hfind ▸ .vacant, (Option.some.inj h).symm⟩
  all_goals cases h

/-- A path under which a file can be written is no path of a directory, and its names lead there. -/
theorem follow_of_writable {path : Path} (h : (disk.find path).Writable place) :
    path.isEmpty = false ∧ path.ofDirectory = false ∧ (disk.follow (disk.start path) path.names).Writable place := by
  unfold find at h
  split at h
  · cases h
  · next hempty =>
    refine ⟨Bool.eq_false_iff.mpr hempty, ?_⟩
    split at h
    -- of what the names lead to, a file and a vacant place are left, if the path is no path of a directory
    · next hfollow =>
      split at h
      · cases h
      · next hdirectory => exact ⟨Bool.eq_false_iff.mpr hdirectory, hfollow ▸ h⟩
    · next hfollow =>
      split at h
      · cases h
      · next hdirectory => exact ⟨Bool.eq_false_iff.mpr hdirectory, hfollow ▸ h⟩
    · next hfile hvacant =>
      generalize disk.follow (disk.start path) path.names = target at h hfile hvacant
      cases h with
      | file => exact absurd rfl (hfile _ _)
      | vacant => exact absurd rfl (hvacant _)

theorem find_put {path : Path} (h : (disk.find path).Writable place) (content : ByteArray) :
    (disk.put place (.file content)).find path = .file place content := by
  obtain ⟨hempty, hdirectory, htarget⟩ := follow_of_writable h
  have hstart : (disk.put place (.file content)).start path = disk.start path := rfl
  rw [find, hempty, hstart, follow_put htarget, hdirectory]
  rfl

/-- A file that was written can be read, and it holds what was written. -/
theorem read_of_write? {path : Path} {content : ByteArray} {written : Disk}
    (h : disk.write? path content = some written) : written.read path = .content content := by
  obtain ⟨place, hwritable, rfl⟩ := write?_eq_some h
  rw [read, find_put hwritable]

end Disk

end DeskCalculator

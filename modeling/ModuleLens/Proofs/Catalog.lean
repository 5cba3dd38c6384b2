import ModuleLens.Catalog

/-! Catalogs read the document that they are asked for: whatever they read at a location is of that
location.  This holds of the catalogs of a disk and of a set of files, and it stays so when other
documents stand in front, each at its own location. -/

namespace ModuleLens

namespace Catalog

/-- A document that is read at a location is of that location. -/
def Honest (c : Catalog) : Prop := ∀ uri document, c.read uri = .ok document → document.uri = uri

theorem readWith_honest {stdlib : Table Text Text} {other : Uri → Except CatalogError Document}
    (h : ∀ uri document, other uri = .ok document → document.uri = uri) (uri : Uri)
    (document : Document) (hd : readWith stdlib other uri = .ok document) : document.uri = uri := by
  rw [readWith] at hd
  split at hd
  · rw [readStdlib] at hd
    split at hd
    · cases hd
      rfl
    · cases hd
  · exact h uri document hd

theorem honest_ofDisk (stdlib : Table Text Text) (disk : Disk) : (ofDisk stdlib disk).Honest := by
  refine readWith_honest fun uri document hd => ?_
  rw [readDisk] at hd
  split at hd
  · cases hd
  · split at hd
    · cases hd
      rfl
    · cases hd
    · cases hd

theorem honest_ofFiles (stdlib files : Table Text Text) : (ofFiles stdlib files).Honest := by
  refine readWith_honest fun uri document hd => ?_
  rw [readFiles] at hd
  split at hd
  · cases hd
    rfl
  · cases hd

theorem Honest.shadowedBy {c : Catalog} (h : c.Honest) {documents : Uri → Option Document}
    (hd : ∀ uri document, documents uri = some document → document.uri = uri) :
    (c.shadowedBy documents).Honest := by
  intro uri document hr
  simp only [Catalog.shadowedBy] at hr
  split at hr
  · next d hs =>
    cases hr
    exact hd uri document hs
  · exact h uri document hr

end Catalog

end ModuleLens

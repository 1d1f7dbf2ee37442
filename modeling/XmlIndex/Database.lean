import XmlIndex.Collection.Catalog
import XmlIndex.Index.Basic
import XmlIndex.Settings

/-! # Databases

A database is an index and a catalog of collections over one store.  What is done to the store
through one of them is seen by the other. -/

namespace XmlIndex

/-- An index and a catalog over one store, which is the catalog's. -/
structure Database where
  settings : Settings
  symbols : SymbolTable
  catalog : Catalog (Option Budget)

namespace Database

/-- The budget the settings give. -/
def budgetOf (settings : Settings) : Budget :=
  .ofFactor settings.slotLimit settings.growthFactor

/-- A database over a store; its cache grows only if it has a budget. -/
def ofStore (settings : Settings) (budgeted : Bool) (symbols : SymbolTable) (store : Store) :
    Database where
  settings := settings
  symbols := symbols
  catalog :=
    .ofStore store settings.cacheSize settings.cacheThreshold
      (if budgeted then some (budgetOf settings) else none)

/-- A store of this name with the settings. -/
def newStore (settings : Settings) (name : String) : Store :=
  { name, timeout := settings.lockTimeout }

/-- The store. -/
def store (d : Database) : Store := d.catalog.host.store

/-- The database with another state of the store. -/
def withStore (d : Database) (store : Store) : Database :=
  { d with catalog := { d.catalog with host := { d.catalog.host with store } } }

/-- The database with a changed state of the store. -/
def changeStore (d : Database) (f : Store → Store) : Database := d.withStore (f d.store)

/-- The number of slots the budget has given out, if there is one. -/
def allocated? (d : Database) : Option Nat := d.catalog.host.source.map Budget.allocated

/-- Runs an action on the store. -/
def onStore {α : Type} (x : Action Store α) : Action Database α :=
  Action.on store (fun store d => d.withStore store) x

/-- Runs an action on the catalog. -/
def onCatalog {α : Type} (x : Action (Catalog (Option Budget)) α) : Action Database α :=
  Action.on catalog (fun catalog d => { d with catalog }) x

/-- Runs an action on the symbol table. -/
def onSymbols {α : Type} (x : Action SymbolTable α) : Action Database α
  | ⟨settings, symbols, catalog⟩ =>
    match x symbols with
    | .ok a symbols => .ok a ⟨settings, symbols, catalog⟩
    | .error e symbols => .error e ⟨settings, symbols, catalog⟩

/-- The index. -/
def index (d : Database) : Index :=
  { store := d.store, symbols := d.symbols, progressStep := d.settings.progressStep }

/-- The database with another state of the index. -/
def withIndex (d : Database) (i : Index) : Database :=
  { d.withStore i.store with symbols := i.symbols }

/-- Runs an action on the index. -/
def onIndex {α : Type} (x : Action Index α) : Action Database α :=
  Action.on index (fun i d => d.withIndex i) x

end Database

end XmlIndex

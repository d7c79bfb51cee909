import DeclForest.Catalog.Json
import DeclForest.Catalog.Yaml
import DeclForest.Source.Render
import DeclForest.Workspace
import DeclForest.Proofs.CatalogSpelling
import DeclForest.Proofs.CatalogYaml
import DeclForest.Proofs.CommentReuse
import DeclForest.Proofs.Commutation
import DeclForest.Proofs.FirstAsked
import DeclForest.Proofs.Grove
import DeclForest.Proofs.ImportBatch
import DeclForest.Proofs.Indentation
import DeclForest.Proofs.MemberViews
import DeclForest.Proofs.Modification
import DeclForest.Proofs.ModifierUnion
import DeclForest.Proofs.UseSites
import DeclForest.Proofs.Walk

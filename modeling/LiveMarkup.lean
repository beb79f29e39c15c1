import LiveMarkup.Proofs.Cards.Created
import LiveMarkup.Proofs.Forest.AttributeMaps
import LiveMarkup.Proofs.Forest.Groups
import LiveMarkup.Proofs.Forest.Normalized
import LiveMarkup.Proofs.Forest.Replacements
import LiveMarkup.Proofs.Markup.RawText
import LiveMarkup.Proofs.Reactive.Blocks
import LiveMarkup.Proofs.Reactive.LostUpdates
import LiveMarkup.Proofs.Run.Apart
import LiveMarkup.Proofs.Run.Deferred
import LiveMarkup.Proofs.Run.Dispatches
import LiveMarkup.Proofs.Run.Flattening
import LiveMarkup.Proofs.Run.Inert
import LiveMarkup.Proofs.Run.LiveHoles
import LiveMarkup.Proofs.Run.Quiescence
import LiveMarkup.Proofs.Tasks.Machines
import LiveMarkup.Proofs.Template.Bases
